import CapLang.Term.FreeVariables
import CapLang.Value.Basic

/-!
# Free occurrences

The free occurrences of variables in a term, in the order of the text, defined binder by binder: a
binder takes away the occurrences of its names in its scope.  The search for free variables, which
passes the names in scope down instead, notes just these occurrences (`findFree_eq`).
-/
namespace CapLang

namespace FreeVariable

/-- The occurrences of other names than those bound. -/
def outside (bound : List Name) (occurrences : List FreeVariable) : List FreeVariable :=
  occurrences.filter fun o => !bound.contains o.name

theorem mem_outside {bound : List Name} {occurrences : List FreeVariable} {o : FreeVariable} :
    o ∈ outside bound occurrences ↔ o ∈ occurrences ∧ o.name ∉ bound := by
  simp [outside]

theorem outside_append (bound : List Name) (l₁ l₂ : List FreeVariable) :
    outside bound (l₁ ++ l₂) = outside bound l₁ ++ outside bound l₂ := List.filter_append ..

theorem outside_outside (outer inner : List Name) (occurrences : List FreeVariable) :
    outside outer (outside inner occurrences) = outside (inner ++ outer) occurrences := by
  unfold outside
  rw [List.filter_filter]
  refine List.filter_congr fun o _ => ?_
  rw [List.contains_append, Bool.not_or]
  exact Bool.and_comm _ _

theorem outside_nil (occurrences : List FreeVariable) : outside [] occurrences = occurrences := by
  simp [outside]

/-- Notes occurrences one after the other. -/
def noteAll (occurrences found : List FreeVariable) : List FreeVariable :=
  occurrences.foldl (fun found o => note o.name o.span found) found

theorem noteAll_append (l₁ l₂ found : List FreeVariable) :
    noteAll (l₁ ++ l₂) found = noteAll l₂ (noteAll l₁ found) := List.foldl_append ..

/-- A note adds the name, unless there is one of it. -/
theorem exists_mem_note {x y : Name} {span : Option Span} {found : List FreeVariable} :
    (∃ o ∈ note y span found, o.name = x) ↔ y = x ∨ ∃ o ∈ found, o.name = x := by
  unfold note
  by_cases h : found.any (·.name == y)
  · rw [if_pos h]
    -- The name has an entry, and nothing is added.
    obtain ⟨o, ho, hname⟩ := List.any_eq_true.mp h
    have hname : o.name = y := beq_iff_eq.mp hname
    constructor
    · exact .inr
    · rintro (rfl | hfound)
      · exact ⟨o, ho, hname⟩
      · exact hfound
  · rw [if_neg h]
    simp

theorem exists_mem_noteAll {x : Name} {occurrences found : List FreeVariable} :
    (∃ o ∈ noteAll occurrences found, o.name = x) ↔
      (∃ o ∈ occurrences, o.name = x) ∨ ∃ o ∈ found, o.name = x := by
  induction occurrences generalizing found with
  | nil => simp [noteAll]
  | cons o rest ih =>
    have hstep : noteAll (o :: rest) found = noteAll rest (note o.name o.span found) := rfl
    rw [hstep, ih, exists_mem_note]
    simp only [List.mem_cons, exists_eq_or_imp]
    exact ⟨fun h => h.elim (fun h => .inl (.inr h)) fun h => h.elim (fun h => .inl (.inl h)) .inr,
      fun h => h.elim (fun h => h.elim (fun h => .inr (.inl h)) .inl) fun h => .inr (.inr h)⟩

end FreeVariable

open FreeVariable

mutual

/-- **The free occurrences of a term**, from left to right. -/
def Term.freeOccurrences : Term → List FreeVariable
  | .literal .. => []
  | .var span x => [⟨x, span⟩]
  | .lambda _ _ h body => outside h.params body.freeOccurrences
  | .app _ func args => func.freeOccurrences ++ Term.occurrencesOfAll args
  | .letIn _ x value body => value.freeOccurrences ++ outside [x] body.freeOccurrences
  | .letRec _ _ functions body =>
    outside (functions.map (·.1.binder)) (Term.occurrencesOfGroup functions ++ body.freeOccurrences)
  | .ifThenElse _ c a b => c.freeOccurrences ++ (a.freeOccurrences ++ b.freeOccurrences)
  | .caseOf _ e alternatives => e.freeOccurrences ++ Term.occurrencesOfAlternatives alternatives
  | .record _ fields => Term.occurrencesOfFields fields
  | .field _ e _ => e.freeOccurrences
  | .variant _ _ e => e.freeOccurrences
  | .prim _ _ args => Term.occurrencesOfAll args

/-- The free occurrences of terms, one after the other. -/
def Term.occurrencesOfAll : List Term → List FreeVariable
  | [] => []
  | t :: ts => t.freeOccurrences ++ Term.occurrencesOfAll ts

/-- The free occurrences of the functions of a group, each in the scope of its own parameters. -/
def Term.occurrencesOfGroup : List (GroupHeader × Term) → List FreeVariable
  | [] => []
  | (g, body) :: rest =>
    outside g.header.params body.freeOccurrences ++ Term.occurrencesOfGroup rest

/-- The free occurrences of alternatives, each in the scope of its own pattern. -/
def Term.occurrencesOfAlternatives : List (Pattern × Term) → List FreeVariable
  | [] => []
  | (p, body) :: rest =>
    outside p.boundNames body.freeOccurrences ++ Term.occurrencesOfAlternatives rest

/-- The free occurrences of field values, one after the other. -/
def Term.occurrencesOfFields : List (Name × Term) → List FreeVariable
  | [] => []
  | (_, t) :: rest => t.freeOccurrences ++ Term.occurrencesOfFields rest

end

/-- The free occurrences of a function: of a lambda, or of the whole group of a member. -/
def Code.freeOccurrences : Code → List FreeVariable
  | .lambda _ h body => outside h.params body.freeOccurrences
  | .member _ functions _ =>
    outside (functions.map (·.1.binder)) (Term.occurrencesOfGroup functions)

namespace Term

theorem mem_occurrencesOfAll {ts : List Term} {o : FreeVariable} :
    o ∈ occurrencesOfAll ts ↔ ∃ t ∈ ts, o ∈ t.freeOccurrences := by
  induction ts with
  | nil => simp [occurrencesOfAll]
  | cons t ts ih => simp [occurrencesOfAll, ih]

theorem mem_occurrencesOfFields {fields : List (Name × Term)} {o : FreeVariable} :
    o ∈ occurrencesOfFields fields ↔ ∃ t ∈ fields.map (·.2), o ∈ t.freeOccurrences := by
  induction fields with
  | nil => simp [occurrencesOfFields]
  | cons field rest ih =>
    obtain ⟨x, t⟩ := field
    simp only [occurrencesOfFields, List.mem_append, ih, List.map_cons, List.mem_cons,
      exists_eq_or_imp]

theorem mem_occurrencesOfGroup {functions : List (GroupHeader × Term)} {o : FreeVariable} :
    o ∈ occurrencesOfGroup functions ↔
      ∃ f ∈ functions, o ∈ f.2.freeOccurrences ∧ o.name ∉ f.1.header.params := by
  induction functions with
  | nil => simp [occurrencesOfGroup]
  | cons f rest ih =>
    obtain ⟨g, body⟩ := f
    simp only [occurrencesOfGroup, List.mem_append, ih, mem_outside, List.mem_cons,
      exists_eq_or_imp]

theorem mem_occurrencesOfAlternatives {alternatives : List (Pattern × Term)} {o : FreeVariable} :
    o ∈ occurrencesOfAlternatives alternatives ↔
      ∃ a ∈ alternatives, o ∈ a.2.freeOccurrences ∧ o.name ∉ a.1.boundNames := by
  induction alternatives with
  | nil => simp [occurrencesOfAlternatives]
  | cons a rest ih =>
    obtain ⟨p, body⟩ := a
    simp only [occurrencesOfAlternatives, List.mem_append, ih, mem_outside, List.mem_cons,
      exists_eq_or_imp]

end Term

/-- The body of a function, inside the group that the function is in, has no other free occurrences
than the parameters. -/
theorem Code.mem_occurrencesOfGroup {id : CodeId} {functions : List (GroupHeader × Term)} {i : Nat}
    {o : FreeVariable}
    (ho : o ∈ outside (Code.member id functions i).params
      (Code.member id functions i).body.freeOccurrences) :
    o ∈ Term.occurrencesOfGroup functions := by
  obtain ⟨hbody, hparams⟩ := mem_outside.mp ho
  cases hi : functions[i]? with
  | none =>
    simp only [Code.body, hi, Option.map_none, Option.getD_none, Term.unit,
      Term.freeOccurrences, List.not_mem_nil] at hbody
  | some f =>
    simp only [Code.body, hi, Option.map_some, Option.getD_some] at hbody
    simp only [Code.params, Code.header, hi, Option.map_some, Option.getD_some] at hparams
    exact Term.mem_occurrencesOfGroup.mpr ⟨f, List.mem_of_getElem? hi, hbody, hparams⟩

/-! ## The search -/

mutual

/-- **The search notes the free occurrences**, except those of names in scope. -/
theorem Term.findFree_eq (scope : List Name) : ∀ (t : Term) (found : List FreeVariable),
    t.findFree scope found = noteAll (outside scope t.freeOccurrences) found
  | .literal .., found => rfl
  | .var span x, found => by
    simp only [Term.findFree, Term.freeOccurrences, outside, List.filter_cons, List.filter_nil]
    cases scope.contains x <;> rfl
  | .lambda _ _ h body, found => by
    rw [Term.findFree, Term.freeOccurrences, outside_outside, Term.findFree_eq _ body]
  | .app _ func args, found => by
    rw [Term.findFree, Term.freeOccurrences, outside_append, noteAll_append,
      Term.findFree_eq _ func, Term.findFreeAll_eq _ args]
  | .letIn _ x value body, found => by
    rw [Term.findFree, Term.freeOccurrences, outside_append, noteAll_append, outside_outside,
      Term.findFree_eq _ value, Term.findFree_eq _ body]
    rfl
  | .letRec _ _ functions body, found => by
    simp only [Term.findFree, Term.freeOccurrences]
    rw [outside_outside, outside_append, noteAll_append, Term.findFreeGroup_eq _ functions,
      Term.findFree_eq _ body]
  | .ifThenElse _ c a b, found => by
    rw [Term.findFree, Term.freeOccurrences, outside_append, outside_append, noteAll_append,
      noteAll_append, Term.findFree_eq _ c, Term.findFree_eq _ a, Term.findFree_eq _ b]
  | .caseOf _ e alternatives, found => by
    rw [Term.findFree, Term.freeOccurrences, outside_append, noteAll_append,
      Term.findFree_eq _ e, Term.findFreeAlternatives_eq _ alternatives]
  | .record _ fields, found => by
    rw [Term.findFree, Term.freeOccurrences, Term.findFreeFields_eq _ fields]
  | .field _ e _, found => by rw [Term.findFree, Term.freeOccurrences, Term.findFree_eq _ e]
  | .variant _ _ e, found => by rw [Term.findFree, Term.freeOccurrences, Term.findFree_eq _ e]
  | .prim _ _ args, found => by
    rw [Term.findFree, Term.freeOccurrences, Term.findFreeAll_eq _ args]

theorem Term.findFreeAll_eq (scope : List Name) : ∀ (ts : List Term) (found : List FreeVariable),
    Term.findFreeAll scope ts found = noteAll (outside scope (Term.occurrencesOfAll ts)) found
  | [], found => rfl
  | t :: ts, found => by
    rw [Term.findFreeAll, Term.occurrencesOfAll, outside_append, noteAll_append,
      Term.findFree_eq _ t, Term.findFreeAll_eq _ ts]

theorem Term.findFreeGroup_eq (scope : List Name) :
    ∀ (functions : List (GroupHeader × Term)) (found : List FreeVariable),
      Term.findFreeGroup scope functions found =
        noteAll (outside scope (Term.occurrencesOfGroup functions)) found
  | [], found => rfl
  | (g, body) :: rest, found => by
    rw [Term.findFreeGroup, Term.occurrencesOfGroup, outside_append, noteAll_append,
      outside_outside, Term.findFree_eq _ body, Term.findFreeGroup_eq _ rest]

theorem Term.findFreeAlternatives_eq (scope : List Name) :
    ∀ (alternatives : List (Pattern × Term)) (found : List FreeVariable),
      Term.findFreeAlternatives scope alternatives found =
        noteAll (outside scope (Term.occurrencesOfAlternatives alternatives)) found
  | [], found => rfl
  | (p, body) :: rest, found => by
    rw [Term.findFreeAlternatives, Term.occurrencesOfAlternatives, outside_append, noteAll_append,
      outside_outside, Term.findFree_eq _ body, Term.findFreeAlternatives_eq _ rest]

theorem Term.findFreeFields_eq (scope : List Name) :
    ∀ (fields : List (Name × Term)) (found : List FreeVariable),
      Term.findFreeFields scope fields found =
        noteAll (outside scope (Term.occurrencesOfFields fields)) found
  | [], found => rfl
  | (x, t) :: rest, found => by
    rw [Term.findFreeFields, Term.occurrencesOfFields, outside_append, noteAll_append,
      Term.findFree_eq _ t, Term.findFreeFields_eq _ rest]

end

namespace Term

theorem freeVariables_eq (t : Term) : t.freeVariables = (noteAll t.freeOccurrences []).reverse := by
  rw [freeVariables, findFree_eq, outside_nil]

/-- **The free variables are the names with free occurrences.** -/
theorem exists_mem_freeVariables {t : Term} {x : Name} :
    (∃ o ∈ t.freeVariables, o.name = x) ↔ ∃ o ∈ t.freeOccurrences, o.name = x := by
  simp only [freeVariables_eq, List.mem_reverse]
  rw [exists_mem_noteAll]
  simp

theorem freeOccurrences_of_closed {t : Term} (h : t.freeVariables = []) :
    t.freeOccurrences = [] := by
  cases hocc : t.freeOccurrences with
  | nil => rfl
  | cons o rest =>
    have hfree : ∃ o' ∈ t.freeVariables, o'.name = o.name := by
      rw [exists_mem_freeVariables, hocc]
      exact ⟨o, List.mem_cons_self, rfl⟩
    obtain ⟨o', ho', -⟩ := hfree
    rw [h] at ho'
    cases ho'

end Term
end CapLang
