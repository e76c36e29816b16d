import CapLang.Proofs.AkinWorlds
import CapLang.Proofs.Counting
import CapLang.Proofs.Coupling
import CapLang.Proofs.FreeOccurrences

/-!
# Binding a literal is substituting it

Environments stand in for substitution: a term with `x` bound to a literal and the term with the
literal in place of the free occurrences of `x` come to the same (`let_literal_eq_substitute`).
They do not come to equal values, since functions made on the one side remember the binding, and
those made on the other side have the literal in their code.  Values are therefore compared up to
this difference (`Value.Substituted`).  A flag goes along with environments and terms: it says
whether an occurrence of `x` would still refer to the binding, or to a binder further in.
-/
namespace CapLang

open FreeVariable
open Value (FaithfulUnder)

/-! ## Substitution -/

/-- Whether occurrences of the name are free in the scope of a binder of other names, given that
they are `free` around it. -/
def Name.freeUnder (x : Name) (bound : List Name) (free : Bool) : Bool := free && !bound.contains x

section Definitions

variable (x : Name) (l : Literal)

mutual

/-- The term with a literal in place of the occurrences of a name that are free in it, if such
occurrences are `free` where the term stands. -/
def Term.substituteIf (free : Bool) : Term → Term
  | .literal span k => .literal span k
  | .var span y => if free ∧ y = x then .literal span l else .var span y
  | .lambda span id h body =>
    .lambda span id h (body.substituteIf (x.freeUnder h.params free))
  | .app span func args => .app span (func.substituteIf free) (Term.substituteAll free args)
  | .letIn span y value body =>
    .letIn span y (value.substituteIf free) (body.substituteIf (x.freeUnder [y] free))
  | .letRec span id functions body =>
    let inside := x.freeUnder (functions.map (·.1.binder)) free
    .letRec span id (Term.substituteGroup inside functions) (body.substituteIf inside)
  | .ifThenElse span c a b =>
    .ifThenElse span (c.substituteIf free) (a.substituteIf free) (b.substituteIf free)
  | .caseOf span e alternatives =>
    .caseOf span (e.substituteIf free) (Term.substituteAlternatives free alternatives)
  | .record span fields => .record span (Term.substituteFields free fields)
  | .field span e y => .field span (e.substituteIf free) y
  | .variant span tag e => .variant span tag (e.substituteIf free)
  | .prim span op args => .prim span op (Term.substituteAll free args)

/-- Each of the terms with the literal. -/
def Term.substituteAll (free : Bool) : List Term → List Term
  | [] => []
  | t :: ts => t.substituteIf free :: Term.substituteAll free ts

/-- The functions of a group with the literal in their bodies. -/
def Term.substituteGroup (free : Bool) : List (GroupHeader × Term) → List (GroupHeader × Term)
  | [] => []
  | (g, body) :: rest =>
    (g, body.substituteIf (x.freeUnder g.header.params free)) :: Term.substituteGroup free rest

/-- The alternatives with the literal in their bodies. -/
def Term.substituteAlternatives (free : Bool) : List (Pattern × Term) → List (Pattern × Term)
  | [] => []
  | (p, body) :: rest =>
    (p, body.substituteIf (x.freeUnder p.boundNames free)) ::
      Term.substituteAlternatives free rest

/-- The fields with the literal in their values. -/
def Term.substituteFields (free : Bool) : List (Name × Term) → List (Name × Term)
  | [] => []
  | (y, t) :: rest => (y, t.substituteIf free) :: Term.substituteFields free rest

end

/-- **The term with a literal in place of the free occurrences of a name.** -/
def Term.substitute (t : Term) : Term := t.substituteIf x l true

/-- Function code with the literal. -/
def Code.substituteIf (free : Bool) : Code → Code
  | .lambda id h body => .lambda id h (body.substituteIf x l (x.freeUnder h.params free))
  | .member id functions i =>
    let inside := x.freeUnder (functions.map (·.1.binder)) free
    .member id (Term.substituteGroup x l inside functions) i

mutual

/-- **Values that are equal but for substitution in functions**, and but for stamps: the one
function remembers the binding that has been substituted in the other. -/
inductive Value.Substituted : Value → Value → Prop
  | int (n : Int64) : Value.Substituted (.int n) (.int n)
  | bool (b : Bool) : Value.Substituted (.bool b) (.bool b)
  | str (s : String) : Value.Substituted (.str s) (.str s)
  | unit : Value.Substituted .unit .unit
  | closure (code : Code) {free : Bool} {env₁ env₂ : Env}
      (env : Env.Substituted free env₁ env₂) :
      Value.Substituted (.closure code env₁) (.closure (code.substituteIf x l free) env₂)
  | record (s₁ s₂ : Stamp) {vs ws : List (Name × Value)}
      (fields : Entrywise Eq Value.Substituted vs ws) :
      Value.Substituted (.record s₁ vs) (.record s₂ ws)
  | variant (tag : Name) {v w : Value} (payload : Value.Substituted v w) :
      Value.Substituted (.variant tag v) (.variant tag w)
  | capability (h : Handle) : Value.Substituted (.capability h) (.capability h)

/-- Environments that are equal but for the binding of the literal and for substitution in what
they hold.  The flag tells whether that binding is there and none further in hides it. -/
inductive Env.Substituted : Bool → Env → Env → Prop
  | empty : Env.Substituted false .empty .empty
  | binding (s : Stamp) {env₁ env₂ : Env} (outer : Env.Substituted false env₁ env₂) :
      Env.Substituted true (.frame s [(x, .ofLiteral l)] env₁) env₂
  | frame (s₁ s₂ : Stamp) {free : Bool} {vs ws : List (Name × Value)} {env₁ env₂ : Env}
      (bindings : Entrywise Eq Value.Substituted vs ws)
      (outer : Env.Substituted free env₁ env₂) :
      Env.Substituted (x.freeUnder (vs.map (·.1)) free) (.frame s₁ vs env₁) (.frame s₂ ws env₂)

end

end Definitions

variable {x : Name} {l : Literal} {free : Bool}

/-! ## Terms and code with the literal -/

theorem Term.substituteAll_eq (ts : List Term) :
    Term.substituteAll x l free ts = ts.map (·.substituteIf x l free) := by
  induction ts with
  | nil => rfl
  | cons t ts ih => rw [Term.substituteAll, List.map_cons, ih]

theorem Term.substituteGroup_eq (functions : List (GroupHeader × Term)) :
    Term.substituteGroup x l free functions = functions.map fun f =>
      (f.1, f.2.substituteIf x l (x.freeUnder f.1.header.params free)) := by
  induction functions with
  | nil => rfl
  | cons f rest ih =>
    obtain ⟨g, body⟩ := f
    rw [Term.substituteGroup, List.map_cons, ih]

theorem Term.substituteAlternatives_eq (alternatives : List (Pattern × Term)) :
    Term.substituteAlternatives x l free alternatives = alternatives.map fun a =>
      (a.1, a.2.substituteIf x l (x.freeUnder a.1.boundNames free)) := by
  induction alternatives with
  | nil => rfl
  | cons a rest ih =>
    obtain ⟨p, body⟩ := a
    rw [Term.substituteAlternatives, List.map_cons, ih]

theorem Term.substituteFields_eq (fields : List (Name × Term)) :
    Term.substituteFields x l free fields =
      fields.map fun f => (f.1, f.2.substituteIf x l free) := by
  induction fields with
  | nil => rfl
  | cons f rest ih =>
    obtain ⟨y, t⟩ := f
    rw [Term.substituteFields, List.map_cons, ih]

theorem Name.freeUnder_false (x : Name) (bound : List Name) : x.freeUnder bound false = false := rfl

mutual

/-- Without free occurrences a term stays as it is. -/
theorem Term.substituteIf_false : ∀ t : Term, t.substituteIf x l false = t
  | .literal .. => rfl
  | .var .. => by simp [Term.substituteIf]
  | .lambda _ _ h body => by
    simp only [Term.substituteIf, Name.freeUnder_false, Term.substituteIf_false body]
  | .app _ func args => by
    simp only [Term.substituteIf, Term.substituteIf_false func, Term.substituteAll_false args]
  | .letIn _ y value body => by
    simp only [Term.substituteIf, Name.freeUnder_false, Term.substituteIf_false value,
      Term.substituteIf_false body]
  | .letRec _ _ functions body => by
    simp only [Term.substituteIf, Name.freeUnder_false, Term.substituteGroup_false functions,
      Term.substituteIf_false body]
  | .ifThenElse _ c a b => by
    simp only [Term.substituteIf, Term.substituteIf_false c, Term.substituteIf_false a,
      Term.substituteIf_false b]
  | .caseOf _ e alternatives => by
    simp only [Term.substituteIf, Term.substituteIf_false e,
      Term.substituteAlternatives_false alternatives]
  | .record _ fields => by simp only [Term.substituteIf, Term.substituteFields_false fields]
  | .field _ e _ => by simp only [Term.substituteIf, Term.substituteIf_false e]
  | .variant _ _ e => by simp only [Term.substituteIf, Term.substituteIf_false e]
  | .prim _ _ args => by simp only [Term.substituteIf, Term.substituteAll_false args]

theorem Term.substituteAll_false : ∀ ts : List Term, Term.substituteAll x l false ts = ts
  | [] => rfl
  | t :: ts => by
    simp only [Term.substituteAll, Term.substituteIf_false t, Term.substituteAll_false ts]

theorem Term.substituteGroup_false : ∀ functions : List (GroupHeader × Term),
    Term.substituteGroup x l false functions = functions
  | [] => rfl
  | (g, body) :: rest => by
    simp only [Term.substituteGroup, Name.freeUnder_false, Term.substituteIf_false body,
      Term.substituteGroup_false rest]

theorem Term.substituteAlternatives_false : ∀ alternatives : List (Pattern × Term),
    Term.substituteAlternatives x l false alternatives = alternatives
  | [] => rfl
  | (p, body) :: rest => by
    simp only [Term.substituteAlternatives, Name.freeUnder_false, Term.substituteIf_false body,
      Term.substituteAlternatives_false rest]

theorem Term.substituteFields_false : ∀ fields : List (Name × Term),
    Term.substituteFields x l false fields = fields
  | [] => rfl
  | (y, t) :: rest => by
    simp only [Term.substituteFields, Term.substituteIf_false t,
      Term.substituteFields_false rest]

end

theorem Code.substituteIf_false (code : Code) : code.substituteIf x l false = code := by
  cases code with
  | lambda id h body =>
    rw [Code.substituteIf, Name.freeUnder_false, Term.substituteIf_false]
  | member id functions i =>
    rw [Code.substituteIf, Name.freeUnder_false, Term.substituteGroup_false]

/-! ### Free occurrences -/

/-- What is left of occurrences in the scope of a binder, when those of the name have been replaced
that are free there. -/
theorem FreeVariable.outside_freeUnder {os : List FreeVariable}
    (after : Bool → List FreeVariable) (htrue : after true = outside [x] os)
    (hfalse : after false = os) (bound : List Name) :
    outside bound (after (x.freeUnder bound true)) = outside [x] (outside bound os) := by
  have hsame : ∀ {b b' : List Name}, (∀ y, y ∈ b ↔ y ∈ b') → outside b os = outside b' os := by
    intro b b' h
    exact List.filter_congr fun o _ => by simp only [List.contains_eq_mem, h]
  rw [outside_outside]
  by_cases hx : x ∈ bound
  · have hbound : x.freeUnder bound true = false := by simp [Name.freeUnder, hx]
    rw [hbound, hfalse]
    exact hsame fun y => by
      simp only [List.mem_append, List.mem_singleton]
      exact ⟨.inl, fun h => h.elim id fun hy => hy ▸ hx⟩
  · have hfree : x.freeUnder bound true = true := by simp [Name.freeUnder, hx]
    rw [hfree, htrue, outside_outside]
    exact hsame fun y => by simp only [List.mem_append, or_comm]

theorem Term.substituteGroup_binders (functions : List (GroupHeader × Term)) :
    (Term.substituteGroup x l free functions).map (·.1.binder) =
      functions.map (·.1.binder) := by
  rw [Term.substituteGroup_eq, List.map_map]
  rfl

theorem Term.occurrencesOfBody_substitute {body : Term}
    (h : (body.substituteIf x l true).freeOccurrences = outside [x] body.freeOccurrences)
    (bound : List Name) :
    outside bound (body.substituteIf x l (x.freeUnder bound true)).freeOccurrences =
      outside [x] (outside bound body.freeOccurrences) :=
  outside_freeUnder (fun free => (body.substituteIf x l free).freeOccurrences) h
    (congrArg _ body.substituteIf_false) bound

mutual

theorem Term.freeOccurrences_substituteIf : ∀ t : Term,
    (t.substituteIf x l true).freeOccurrences = outside [x] t.freeOccurrences
  | .literal .. => rfl
  | .var span y => by
    by_cases hy : y = x <;> simp [Term.substituteIf, Term.freeOccurrences, outside, hy]
  | .lambda _ _ h body =>
    Term.occurrencesOfBody_substitute (Term.freeOccurrences_substituteIf body) h.params
  | .app _ func args => by
    simp only [Term.substituteIf, Term.freeOccurrences, outside_append,
      Term.freeOccurrences_substituteIf func, Term.occurrencesOfAll_substitute args]
  | .letIn _ y value body => by
    have hbody := Term.occurrencesOfBody_substitute (Term.freeOccurrences_substituteIf body) [y]
    simp only [Term.substituteIf, Term.freeOccurrences, outside_append, hbody,
      Term.freeOccurrences_substituteIf value]
  | .letRec _ _ functions body => by
    simp only [Term.substituteIf, Term.freeOccurrences, Term.substituteGroup_binders]
    refine outside_freeUnder (fun free => Term.occurrencesOfGroup
      (Term.substituteGroup x l free functions) ++ (body.substituteIf x l free).freeOccurrences)
      ?_ ?_ _
    · simp only [outside_append, Term.occurrencesOfGroup_substitute functions,
        Term.freeOccurrences_substituteIf body]
    · simp only [Term.substituteGroup_false, Term.substituteIf_false]
  | .ifThenElse _ c a b => by
    simp only [Term.substituteIf, Term.freeOccurrences, outside_append,
      Term.freeOccurrences_substituteIf c, Term.freeOccurrences_substituteIf a,
      Term.freeOccurrences_substituteIf b]
  | .caseOf _ e alternatives => by
    simp only [Term.substituteIf, Term.freeOccurrences, outside_append,
      Term.freeOccurrences_substituteIf e, Term.occurrencesOfAlternatives_substitute alternatives]
  | .record _ fields => Term.occurrencesOfFields_substitute fields
  | .field _ e _ => Term.freeOccurrences_substituteIf e
  | .variant _ _ e => Term.freeOccurrences_substituteIf e
  | .prim _ _ args => Term.occurrencesOfAll_substitute args

theorem Term.occurrencesOfAll_substitute : ∀ ts : List Term,
    Term.occurrencesOfAll (Term.substituteAll x l true ts) =
      outside [x] (Term.occurrencesOfAll ts)
  | [] => rfl
  | t :: ts => by
    simp only [Term.substituteAll, Term.occurrencesOfAll, outside_append,
      Term.freeOccurrences_substituteIf t, Term.occurrencesOfAll_substitute ts]

theorem Term.occurrencesOfGroup_substitute : ∀ functions : List (GroupHeader × Term),
    Term.occurrencesOfGroup (Term.substituteGroup x l true functions) =
      outside [x] (Term.occurrencesOfGroup functions)
  | [] => rfl
  | (g, body) :: rest => by
    have hbody :=
      Term.occurrencesOfBody_substitute (Term.freeOccurrences_substituteIf body) g.header.params
    simp only [Term.substituteGroup, Term.occurrencesOfGroup, outside_append, hbody,
      Term.occurrencesOfGroup_substitute rest]

theorem Term.occurrencesOfAlternatives_substitute : ∀ alternatives : List (Pattern × Term),
    Term.occurrencesOfAlternatives (Term.substituteAlternatives x l true alternatives) =
      outside [x] (Term.occurrencesOfAlternatives alternatives)
  | [] => rfl
  | (p, body) :: rest => by
    have hbody :=
      Term.occurrencesOfBody_substitute (Term.freeOccurrences_substituteIf body) p.boundNames
    simp only [Term.substituteAlternatives, Term.occurrencesOfAlternatives, outside_append, hbody,
      Term.occurrencesOfAlternatives_substitute rest]

theorem Term.occurrencesOfFields_substitute : ∀ fields : List (Name × Term),
    Term.occurrencesOfFields (Term.substituteFields x l true fields) =
      outside [x] (Term.occurrencesOfFields fields)
  | [] => rfl
  | (_, t) :: rest => by
    simp only [Term.substituteFields, Term.occurrencesOfFields, outside_append,
      Term.freeOccurrences_substituteIf t, Term.occurrencesOfFields_substitute rest]

end

/-- **Substitution takes away the free occurrences of the name** and leaves those of other names, in
their order and at their places. -/
theorem Term.freeOccurrences_substitute (t : Term) :
    (t.substitute x l).freeOccurrences = outside [x] t.freeOccurrences :=
  t.freeOccurrences_substituteIf

namespace Code

theorem substituteIf_header (code : Code) : (code.substituteIf x l free).header = code.header := by
  cases code with
  | lambda id h body => rfl
  | member id functions i =>
    simp only [substituteIf, header, Term.substituteGroup_eq, List.getElem?_map, Option.map_map]
    rfl

theorem substituteIf_params (code : Code) : (code.substituteIf x l free).params = code.params :=
  congrArg Header.params code.substituteIf_header

theorem substituteIf_akin (code : Code) : code.Akin Eq (code.substituteIf x l free) where
  isMember := by cases code <;> rfl
  arity := congrArg List.length code.substituteIf_params.symm
  name := by
    cases code with
    | lambda id h body => exact optionRel_refl (fun _ => rfl) _
    | member id functions i =>
      simp only [substituteIf, name?, Term.substituteGroup_eq, List.getElem?_map, Option.map_map]
      exact optionRel_refl (fun _ => rfl) _

/-- Whether occurrences are free among the functions of a group, if they are around the group. -/
def freeInside (x : Name) (free : Bool) : Code → Bool
  | .lambda .. => free
  | .member _ functions _ => x.freeUnder (functions.map (·.1.binder)) free

theorem substituteIf_body (code : Code) : (code.substituteIf x l free).body =
    code.body.substituteIf x l (x.freeUnder code.params (code.freeInside x free)) := by
  cases code with
  | lambda id h body => rfl
  | member id functions i =>
    simp only [substituteIf, body, params, header, freeInside, Term.substituteGroup_eq,
      List.getElem?_map]
    cases functions[i]? <;> rfl

end Code

/-! ## Values and environments -/

theorem Value.substituted_faithful : FaithfulUnder Eq (Value.Substituted x l) := by
  intro v w h
  cases h with
  | int n => exact .int n
  | bool b => exact .bool b
  | str s => exact .str s
  | unit => exact .unit
  | closure code env => exact .closure code.substituteIf_akin _ _
  | record s₁ s₂ fields => exact .record s₁ s₂ fields
  | variant tag payload => exact .variant rfl payload
  | capability h => exact .capability rfl

mutual

/-- Every value is related to itself. -/
theorem Value.substituted_refl : ∀ v : Value, v.Substituted x l v
  | .int n => .int n
  | .bool b => .bool b
  | .str s => .str s
  | .unit => .unit
  | .closure code env => by
    have henv : Env.Substituted x l false env env := Env.substituted_refl env
    have hclosure := Value.Substituted.closure code henv
    rwa [code.substituteIf_false] at hclosure
  | .record stamp fields => .record stamp stamp (Value.fields_substituted_refl fields)
  | .variant tag payload => .variant tag (Value.substituted_refl payload)
  | .capability h => .capability h

theorem Env.substituted_refl : ∀ env : Env, Env.Substituted x l false env env
  | .empty => .empty
  | .frame stamp bindings outer =>
    .frame stamp stamp (Value.fields_substituted_refl bindings) (Env.substituted_refl outer)

theorem Value.fields_substituted_refl : ∀ fields : List (Name × Value),
    Entrywise Eq (Value.Substituted x l) fields fields
  | [] => .nil
  | (_, v) :: rest =>
    .cons rfl (Value.substituted_refl v) (Value.fields_substituted_refl rest)

end

namespace Env.Substituted

variable {env₁ env₂ : Env}

theorem freeUnder_eq_true {bound : List Name} :
    x.freeUnder bound free = true ↔ free = true ∧ x ∉ bound := by
  simp [Name.freeUnder]

/-- The literal is what the name stands for, as long as no binding hides it. -/
theorem lookup_literal {free : Bool} {env₁ env₂ : Env} (h : Env.Substituted x l free env₁ env₂)
    (hfree : free = true) : env₁.lookup x = some (.ofLiteral l) := by
  cases h with
  | empty => cases hfree
  | binding s outer => simp [Env.lookup]
  | @frame _ _ _ vs _ _ _ bindings outer =>
    obtain ⟨hout, hx⟩ := freeUnder_eq_true.mp hfree
    have hnone : Value.field? x vs.reverse = none := by
      rw [← Option.not_isSome_iff_eq_none, Value.field?_isSome, List.map_reverse,
        List.mem_reverse]
      exact hx
    rw [Env.lookup_frame, hnone, Option.none_or]
    exact lookup_literal outer hout

/-- Names that are not to be replaced stand for related values. -/
theorem lookup {y : Name} {free : Bool} {env₁ env₂ : Env}
    (h : Env.Substituted x l free env₁ env₂) (hy : ¬ (free = true ∧ y = x)) :
    Option.Rel (Value.Substituted x l) (env₁.lookup y) (env₂.lookup y) := by
  cases h with
  | empty => exact .none
  | binding s outer =>
    have hne : x ≠ y := fun h => hy ⟨rfl, h.symm⟩
    have houter := lookup outer (y := y) nofun
    simpa [Env.lookup, hne] using houter
  | frame s₁ s₂ bindings outer =>
    refine bindings.lookup_frame biUnique_eq s₁ s₂ rfl fun hmem => lookup outer ?_
    rintro ⟨hfree, rfl⟩
    exact hy ⟨freeUnder_eq_true.mpr ⟨hfree, hmem⟩, rfl⟩

theorem extendMany (h : Env.Substituted x l free env₁ env₂) (s₁ s₂ : Stamp)
    {vs ws : List (Name × Value)} (hbindings : Entrywise Eq (Value.Substituted x l) vs ws)
    {bound : List Name} (hnames : vs.map (·.1) = bound) :
    Env.Substituted x l (x.freeUnder bound free) (env₁.extendMany s₁ vs)
      (env₂.extendMany s₂ ws) := by
  subst hnames
  cases hbindings with
  | nil =>
    have hnone : x.freeUnder [] free = free := Bool.and_true free
    rw [List.map_nil, hnone]
    exact h
  | cons key content rest => exact .frame s₁ s₂ (.cons key content rest) h

/-- A group is bound around the literal as it is around the binding. -/
theorem bindGroup (h : Env.Substituted x l free env₁ env₂) (s₁ s₂ : Stamp) (id : CodeId)
    (functions : List (GroupHeader × Term)) :
    let inside := x.freeUnder (functions.map (·.1.binder)) free
    Env.Substituted x l inside (env₁.bindGroup s₁ id functions)
      (env₂.bindGroup s₂ id (Term.substituteGroup x l inside functions)) := by
  intro inside
  have hheaders : Entrywise Eq (fun _ _ => True) functions
      (Term.substituteGroup x l inside functions) := by
    rw [Term.substituteGroup_eq]
    exact .map_right fun _ => trivial
  refine h.extendMany s₁ s₂ (hheaders.mapIdx (fun _ _ _ hg _ => congrArg GroupHeader.binder hg) ?_)
    (Env.names_group id functions env₁)
  exact fun i _ _ _ _ => .closure (.member id functions i) h

theorem ofCode (h : Env.Substituted x l free env₁ env₂) (s₁ s₂ : Stamp) (code : Code) :
    Env.Substituted x l (code.freeInside x free) (env₁.ofCode s₁ code)
      (env₂.ofCode s₂ (code.substituteIf x l free)) := by
  cases code with
  | lambda id header body => exact h
  | member id functions i => exact h.bindGroup s₁ s₂ id functions

end Env.Substituted

/-! ## Evaluation -/

/-- The second term has the literal wherever the first has an occurrence of the name that refers to
the binding in its environment. -/
def Term.SubstitutedIn (x : Name) (l : Literal) (env₁ env₂ : Env) (t u : Term) : Prop :=
  ∃ free, Env.Substituted x l free env₁ env₂ ∧ u = t.substituteIf x l free

/-- A term and the same with the literal begin alike, in environments with and without the binding.
What decides at an occurrence of a variable is whether a binder in between has taken it. -/
theorem Term.substituteIf_layer {env₁ env₂ : Env} (henv : Env.Substituted x l free env₁ env₂)
    (t : Term) : Layer Eq (Value.Substituted x l) (Term.SubstitutedIn x l) (fun _ _ => True)
      env₁ env₂ t (t.substituteIf x l free) := by
  have hpart : ∀ u : Term, SubstitutedIn x l env₁ env₂ u (u.substituteIf x l free) :=
    fun _ => ⟨free, henv, rfl⟩
  have hscope : ∀ {bound : List Name} {vs ws : List (Name × Value)} (s₁ s₂ : Stamp) (u : Term),
      vs.map (·.1) = bound → Entrywise Eq (Value.Substituted x l) vs ws →
        SubstitutedIn x l (env₁.extendMany s₁ vs) (env₂.extendMany s₂ ws) u
          (u.substituteIf x l (x.freeUnder bound free)) :=
    fun s₁ s₂ _ hnames hvs => ⟨_, henv.extendMany s₁ s₂ hvs hnames, rfl⟩
  have hall : ∀ us : List Term,
      List.Forall₂ (SubstitutedIn x l env₁ env₂) us (substituteAll x l free us) := by
    intro us
    rw [substituteAll_eq, List.forall₂_map_right_iff, List.forall₂_same]
    exact fun u _ => hpart u
  cases t with
  | literal span k => exact .value rfl rfl (Value.substituted_refl _)
  | var span y =>
    rw [substituteIf]
    by_cases hy : free = true ∧ y = x
    · rw [if_pos hy]
      obtain ⟨hfree, rfl⟩ := hy
      exact .value (henv.lookup_literal hfree) rfl (Value.substituted_refl _)
    · rw [if_neg hy]
      have hlookup := henv.lookup hy
      generalize h₁ : env₁.lookup y = found₁ at hlookup
      generalize h₂ : env₂.lookup y = found₂ at hlookup
      cases hlookup with
      | none => exact .unbound rfl h₁ h₂
      | some hv => exact .value h₁ h₂ hv
  | lambda span id h body => exact .value rfl rfl (.closure (.lambda id h body) henv)
  | app span func args => exact .app (hpart func) (hall args)
  | letIn span y value body =>
    exact .letIn (hpart value) fun s₁ s₂ v w _ hv => hscope s₁ s₂ body rfl (.cons rfl hv .nil)
  | letRec span id functions body =>
    exact .letRec fun s₁ s₂ _ => ⟨_, henv.bindGroup s₁ s₂ id functions, rfl⟩
  | ifThenElse span c a b => exact .ifThenElse (hpart c) (hpart a) (hpart b)
  | caseOf span e alternatives =>
    refine .caseOf (hpart e) ?_
    rw [substituteAlternatives_eq, List.forall₂_map_right_iff, List.forall₂_same]
    exact fun a _ => ⟨a.1.akin_refl, fun s₁ s₂ vs ws _ hnames hvs =>
      hscope s₁ s₂ a.2 hnames hvs⟩
  | record span fields =>
    refine .record ?_
    rw [substituteFields_eq]
    exact .map_right fun f => hpart f.2
  | field span e y => exact .field (hpart e) rfl
  | variant span tag e => exact .variant rfl (hpart e)
  | prim span op args => exact .prim op.akin_refl (hall args)

/-- **Terms with the name and with the literal evaluate in tandem.** -/
theorem substitution_tandem (names : NameTable) (registry : Registry) (x : Name) (l : Literal) :
    Tandem ⟨names, registry, World.invoke⟩ ⟨names, registry, World.invoke⟩ Eq
      (Value.Substituted x l) (Term.SubstitutedIn x l) (fun _ _ => True)
      (World.Akin Eq (Value.Substituted x l)) where
  oneToOne := biUnique_eq
  spelled _ _ h := congrArg names.resolve h
  faithful := Value.substituted_faithful
  literal l' := Value.substituted_refl _
  layer {env₁ env₂ t u} h := by
    obtain ⟨free, henv, rfl⟩ := h
    exact t.substituteIf_layer henv
  ofFields {s₁ s₂ vs ws} _ hvs := by
    cases hvs with
    | nil => exact .unit
    | cons key content rest => exact .record s₁ s₂ (.cons key content rest)
  variant {t u v w} htag hv := by
    obtain rfl := htag
    exact .variant t hv
  body {code _ env₁ env₂ args₁ args₂} hf ha hcount s₁ s₂ s₁' s₂' _ _ := by
    cases hf with
    | closure _ henv =>
      rw [code.substituteIf_params, code.substituteIf_body]
      exact ⟨_, (henv.ofCode s₁ s₂ code).extendMany s₁' s₂'
        (.zip (List.forall₂_same.mpr fun _ _ => rfl) ha)
        (List.map_fst_zip (Nat.le_of_eq hcount)), rfl⟩
  stamp hw := ⟨trivial, hw.stamp⟩
  fetch {env₁ env₂ span y y' as bs} hy _ := by
    obtain rfl := hy
    exact optionRel_refl Value.Substituted.capability (registry.find? y)
  host {h k method args₁ args₂ w₁ w₂} hh ha hw := by
    cases hh with
    | capability h =>
      exact hw.invoke (fun _ => Value.substituted_refl _) Value.substituted_faithful
        ⟨rfl, rfl, rfl⟩ method ha

/-- **To bind a literal is to substitute it.**  On any machine and in any environment, `let x = l in
b` and `b` with `l` in place of the free occurrences of `x` end with the very same fault, or with
values that are equal but for substitution in functions.  They make the same calls of host objects,
with arguments equal but for that, and the first evaluates two terms more than the second. -/
theorem let_literal_eq_substitute (names : NameTable) (registry : Registry) (p : Nat) (env : Env)
    (span s : Option Span) (x : Name) (l : Literal) (b : Term) (m : Machine)
    (hobjects : ∀ object ∈ m.world.objects,
      Object.Akin Eq (Value.Substituted x l) object object) :
    let cx : Context := ⟨names, registry, World.invoke⟩
    EndsAlike (fun m₁ m₂ => m₁.stack = m₂.stack ∧
        m₁.counters = m₂.counters.map (fun c => { c with terms := c.terms + 2 }) ∧
        m₁.world.Akin Eq (Value.Substituted x l) m₂.world) (Value.Substituted x l)
      (cx.eval p env (.letIn span x (.literal s l) b) m) (cx.eval p env (b.substitute x l) m) := by
  intro cx
  let more : Option Counters → Option Counters :=
    Option.map fun c => { c with terms := c.terms + 2 }
  let m' : Machine := { m with world := m.world.stamp.2 }
  let inner : Env := env.extendMany m.world.stamp.1 [(x, .ofLiteral l)]
  -- The let and the literal are two terms, after which the body is evaluated.
  have hlet : cx.eval p env (.letIn span x (.literal s l) b) m =
      cx.eval p inner b (m'.recounted more) := by
    have hcounters : (m.counters.map Counters.term).map Counters.term = more m.counters :=
      Option.map_map ..
    have hsteps : cx.eval p env (.letIn span x (.literal s l) b) m =
        cx.eval p inner b { m' with counters := (m.counters.map .term).map .term } := by
      rw [cx.eval_letIn]
      rfl
    rw [hsteps, hcounters]
    rfl
  have hmore := cx.eval_recounted (Counters.steady_terms 2) p inner b m'
  have hself : m.world.Akin Eq (Value.Substituted x l) m.world :=
    World.akin_refl Value.substituted_refl hobjects
  have hbody : Term.SubstitutedIn x l inner env b (b.substitute x l) :=
    ⟨true, .binding _ (Env.substituted_refl env), rfl⟩
  have hend := (substitution_tandem names registry x l).eval p hbody m' m
    ⟨CallStack.akin_eq_iff.mpr rfl, rfl, hself.objects, hself.calls, hself.input, hself.output⟩
  rw [hlet]
  generalize hr₁ : cx.eval p inner b m' = r₁ at hend
  generalize cx.eval p env (b.substitute x l) m = r₂ at hend ⊢
  cases hend with
  | ok result machines =>
    rw [hmore.of_ok hr₁]
    exact .ok result ⟨CallStack.akin_eq_iff.mp machines.stack, congrArg more machines.counters,
      machines.world⟩
  | stop stop machines =>
    rw [hmore.of_error hr₁]
    exact .stop stop ⟨CallStack.akin_eq_iff.mp machines.stack, congrArg more machines.counters,
      machines.world⟩

/-- A function that mentions a literal by its name goes through a host object, and the name is bound
again beside it. -/
theorem echoed_function_substituted :
    let cx : Context := ⟨⟨#["", "echo", "give", "x", "y"]⟩,
      Registry.empty.register ⟨⟨1⟩, ⟨0⟩, "Echo"⟩, World.invoke⟩
    let body (x₁ : Term) : Term := .record none [
      (⟨3⟩, .prim none (.invoke ⟨2⟩)
        [.prim none (.capability ⟨1⟩) [], .lambda none ⟨0⟩ ⟨none, [⟨4⟩]⟩ x₁]),
      (⟨4⟩, .letIn none ⟨3⟩ x₁ (.var none ⟨3⟩))]
    let b : Term := body (.var none ⟨3⟩)
    let m : Machine := .start .interpret true Echo.world
    let bound := cx.eval 0 .empty (.letIn none ⟨3⟩ (.literal none (.int 1)) b) m
    let substituted := cx.eval 0 .empty (b.substitute ⟨3⟩ (.int 1)) m
    (∀ object ∈ m.world.objects,
      Object.Akin Eq (Value.Substituted ⟨3⟩ (.int 1)) object object) ∧
    b.substitute ⟨3⟩ (.int 1) = body (.literal none (.int 1)) ∧
    EndsAlike (fun m₁ m₂ => m₁.stack = m₂.stack ∧
        m₁.counters = m₂.counters.map (fun c => { c with terms := c.terms + 2 }) ∧
        m₁.world.Akin Eq (Value.Substituted ⟨3⟩ (.int 1)) m₂.world)
      (Value.Substituted ⟨3⟩ (.int 1)) bound substituted ∧
    (∃ v m₁, bound = .ok v m₁ ∧ m₁.counters = some ⟨9, 0, 2, 0, 0⟩) ∧
    ∃ v m₂, substituted = .ok v m₂ ∧ m₂.counters = some ⟨7, 0, 2, 0, 0⟩ := by
  intro cx body b m bound substituted
  have hobjects : ∀ object ∈ m.world.objects,
      Object.Akin Eq (Value.Substituted ⟨3⟩ (.int 1)) object object := by
    have hone : m.world.objects = #[.custom "Echo" Echo.answer] := rfl
    intro object hmem
    rw [hone, List.mem_toArray, List.mem_singleton] at hmem
    obtain rfl := hmem
    exact Echo.object_akin
  have hsame := let_literal_eq_substitute cx.names cx.registry 0 .empty none none ⟨3⟩ (.int 1) b m
    hobjects
  exact ⟨hobjects, rfl, hsame, ⟨_, _, rfl, rfl⟩, _, _, rfl, rfl⟩

end CapLang
