import CapLang.Proofs.FreeOccurrences
import CapLang.Proofs.Places
import Mathlib.Data.Set.Lattice

/-!
# Free variables are free references

A reference is a variable somewhere in a term, with the names that the binders around it introduce;
it is free if its name is none of these.  The search for free variables goes through the term once,
with the names in scope and what it has found so far.  What it comes to is the first free reference
of each name (`free_variables_first_references`).

References are told from left to right, which for a recursive group means the functions before the
body.  That they are all variables of the term, with all binders around them, can be seen from their
places (`Term.mem_references_iff`).
-/
namespace CapLang

/-- A variable somewhere in a term. -/
structure Reference where
  name : Name
  span : Option Span
  /-- The names that the binders around it introduce, the innermost binder first. -/
  binders : List (List Name)

namespace Reference

/-- The same reference inside further binders. -/
def within (outer : List (List Name)) (r : Reference) : Reference :=
  { r with binders := r.binders ++ outer }

theorem within_nil : within [] = id := by
  funext r
  rw [within, List.append_nil]
  rfl

theorem within_comp (inner outer : List (List Name)) :
    within outer ∘ within inner = within (inner ++ outer) := by
  funext r
  simp [within]

/-- No binder around the reference introduces its name. -/
def isFree (r : Reference) : Bool := r.binders.all fun names => !names.contains r.name

/-- The reference without its binders. -/
def occurrence (r : Reference) : FreeVariable := ⟨r.name, r.span⟩

/-- The free ones among some references, without their binders. -/
def free (rs : List Reference) : List FreeVariable := (rs.filter isFree).map occurrence

theorem free_append (rs₁ rs₂ : List Reference) : free (rs₁ ++ rs₂) = free rs₁ ++ free rs₂ := by
  simp [free]

/-- A binder takes away the free references of its names. -/
theorem free_within (names : List Name) (rs : List Reference) :
    free (rs.map (within [names])) = FreeVariable.outside names (free rs) := by
  induction rs with
  | nil => rfl
  | cons r rest ih =>
    have hfree : (r.within [names]).isFree = (r.isFree && !names.contains r.name) := by
      simp [isFree, within]
    simp only [free, FreeVariable.outside] at ih ⊢
    cases hr : r.isFree with
    | false => simp [hfree, hr, ih]
    | true =>
      cases hname : names.contains r.name with
      | false => simp_all [occurrence, within]
      | true => simp_all [occurrence, within]

end Reference

open Reference FreeVariable

mutual

/-- **All references in a term**, from left to right. -/
def Term.references : Term → List Reference
  | .literal .. => []
  | .var span x => [⟨x, span, []⟩]
  | .lambda _ _ h body => body.references.map (within [h.params])
  | .app _ func args => func.references ++ Term.referencesOfAll args
  | .letIn _ x value body => value.references ++ body.references.map (within [[x]])
  | .letRec _ _ functions body =>
    (Term.referencesOfGroup functions ++ body.references).map
      (within [functions.map (·.1.binder)])
  | .ifThenElse _ c a b => c.references ++ (a.references ++ b.references)
  | .caseOf _ e alternatives => e.references ++ Term.referencesOfAlternatives alternatives
  | .record _ fields => Term.referencesOfFields fields
  | .field _ e _ => e.references
  | .variant _ _ e => e.references
  | .prim _ _ args => Term.referencesOfAll args

/-- The references in terms, one after the other. -/
def Term.referencesOfAll : List Term → List Reference
  | [] => []
  | t :: ts => t.references ++ Term.referencesOfAll ts

/-- The references in the functions of a group, each inside its own parameters. -/
def Term.referencesOfGroup : List (GroupHeader × Term) → List Reference
  | [] => []
  | (g, body) :: rest =>
    body.references.map (within [g.header.params]) ++ Term.referencesOfGroup rest

/-- The references in alternatives, each inside its own pattern. -/
def Term.referencesOfAlternatives : List (Pattern × Term) → List Reference
  | [] => []
  | (p, body) :: rest =>
    body.references.map (within [p.boundNames]) ++ Term.referencesOfAlternatives rest

/-- The references in field values, one after the other. -/
def Term.referencesOfFields : List (Name × Term) → List Reference
  | [] => []
  | (_, t) :: rest => t.references ++ Term.referencesOfFields rest

end

/-! ## The places of references -/

namespace Term

theorem referencesOfAll_eq (ts : List Term) : referencesOfAll ts = ts.flatMap references := by
  induction ts with
  | nil => rfl
  | cons t ts ih => rw [referencesOfAll, ih, List.flatMap_cons]

theorem referencesOfGroup_eq (functions : List (GroupHeader × Term)) :
    referencesOfGroup functions =
      functions.flatMap fun f => f.2.references.map (within [f.1.header.params]) := by
  induction functions with
  | nil => rfl
  | cons f rest ih => rw [referencesOfGroup, ih, List.flatMap_cons]

theorem referencesOfAlternatives_eq (alternatives : List (Pattern × Term)) :
    referencesOfAlternatives alternatives =
      alternatives.flatMap fun a => a.2.references.map (within [a.1.boundNames]) := by
  induction alternatives with
  | nil => rfl
  | cons a rest ih => rw [referencesOfAlternatives, ih, List.flatMap_cons]

theorem referencesOfFields_eq (fields : List (Name × Term)) :
    referencesOfFields fields = fields.flatMap fun f => f.2.references := by
  induction fields with
  | nil => rfl
  | cons f rest ih => rw [referencesOfFields, ih, List.flatMap_cons]

/-- The parts of a term from left to right, each after the name lists of the binders on the way. -/
def parts : Term → List (List (List Name) × Term)
  | literal .. | var .. => []
  | lambda _ _ h body => [([h.params], body)]
  | app _ func args => ([], func) :: args.map fun a => ([], a)
  | letIn _ x value body => [([], value), ([[x]], body)]
  | letRec _ _ functions body =>
    functions.map (fun f => ([f.1.header.params, functions.map (·.1.binder)], f.2)) ++
      [([functions.map (·.1.binder)], body)]
  | ifThenElse _ c a b => [([], c), ([], a), ([], b)]
  | caseOf _ e alternatives => ([], e) :: alternatives.map fun a => ([a.1.boundNames], a.2)
  | record _ fields => fields.map fun f => ([], f.2)
  | field _ e _ => [([], e)]
  | variant _ _ e => [([], e)]
  | prim _ _ args => args.map fun a => ([], a)

variable {t u : Term} {p : List (List Name) × Term} {r : Reference}

theorem mem_parts_iff : p ∈ t.parts ↔ ∃ i, t.part? i = some p := by
  cases t with
  | literal | var => simp [parts, part?]
  | lambda | field | variant =>
    rw [← Nat.or_exists_add_one]
    simp [parts, part?, eq_comm]
  | app span func args =>
    rw [← Nat.or_exists_add_one, parts, List.mem_cons, List.mem_iff_getElem?]
    simp [part?, eq_comm]
  | letIn =>
    rw [← Nat.or_exists_add_one, ← Nat.or_exists_add_one]
    simp [parts, part?, eq_comm]
  | letRec span id functions body =>
    rw [← Nat.or_exists_add_one, parts, List.mem_append, List.mem_iff_getElem?, or_comm]
    simp [part?, eq_comm]
  | ifThenElse =>
    rw [← Nat.or_exists_add_one, ← Nat.or_exists_add_one, ← Nat.or_exists_add_one]
    simp [parts, part?, eq_comm]
  | caseOf span e alternatives =>
    rw [← Nat.or_exists_add_one, parts, List.mem_cons, List.mem_iff_getElem?]
    simp [part?, eq_comm]
  | record | prim =>
    rw [parts, List.mem_iff_getElem?]
    simp [part?]

/-- A reference is the term itself or a reference in one of its parts. -/
theorem references_eq_parts (t : Term) : t.references =
    (match t with
      | var span x => [⟨x, span, []⟩]
      | _ => []) ++ t.parts.flatMap fun p => p.2.references.map (within p.1) := by
  cases t with
  | letRec span id functions body =>
    simp [references, parts, referencesOfGroup_eq, List.flatMap_map, List.map_flatMap, within_comp]
  | app => simp [references, parts, referencesOfAll_eq, List.flatMap_map, within_nil]
  | caseOf => simp [references, parts, referencesOfAlternatives_eq, List.flatMap_map, within_nil]
  | record => simp [references, parts, referencesOfFields_eq, List.flatMap_map, within_nil]
  | prim => simp [references, parts, referencesOfAll_eq, List.flatMap_map, within_nil]
  | _ => simp [references, parts, within_nil]

theorem sizeOf_snd_lt {α : Type} [SizeOf α] {entries : List (α × Term)} {e : α × Term}
    (h : e ∈ entries) : sizeOf e.2 < sizeOf entries := by
  have hentry := List.sizeOf_lt_of_mem h
  obtain ⟨a, t⟩ := e
  simp only [Prod.mk.sizeOf_spec] at hentry ⊢
  omega

theorem sizeOf_part (h : p ∈ t.parts) : sizeOf p.2 < sizeOf t := by
  cases t with
  | literal | var => cases h
  | lambda | letIn | ifThenElse | field | variant =>
    simp only [parts, List.mem_cons, List.not_mem_nil, or_false] at h
    rcases h with rfl | rfl | rfl <;>
      (simp only [lambda.sizeOf_spec, letIn.sizeOf_spec, ifThenElse.sizeOf_spec, field.sizeOf_spec,
        variant.sizeOf_spec]; omega)
  | app span func args =>
    rcases List.mem_cons.mp h with rfl | h
    · simp only [app.sizeOf_spec]
      omega
    · obtain ⟨a, ha, rfl⟩ := List.mem_map.mp h
      have := List.sizeOf_lt_of_mem ha
      simp only [app.sizeOf_spec]
      omega
  | letRec span id functions body =>
    rcases List.mem_append.mp h with h | h
    · obtain ⟨f, hf, rfl⟩ := List.mem_map.mp h
      have := sizeOf_snd_lt hf
      simp only [letRec.sizeOf_spec]
      omega
    · obtain rfl := List.mem_singleton.mp h
      simp only [letRec.sizeOf_spec]
      omega
  | caseOf span e alternatives =>
    rcases List.mem_cons.mp h with rfl | h
    · simp only [caseOf.sizeOf_spec]
      omega
    · obtain ⟨a, ha, rfl⟩ := List.mem_map.mp h
      have := sizeOf_snd_lt ha
      simp only [caseOf.sizeOf_spec]
      omega
  | record span fields =>
    obtain ⟨f, hf, rfl⟩ := List.mem_map.mp h
    have := sizeOf_snd_lt hf
    simp only [record.sizeOf_spec]
    omega
  | prim span op args =>
    obtain ⟨a, ha, rfl⟩ := List.mem_map.mp h
    have := List.sizeOf_lt_of_mem ha
    simp only [prim.sizeOf_spec]
    omega

/-- Each reference has a place. -/
theorem exists_place_of_mem_references (t : Term) (r : Reference) (h : r ∈ t.references) :
    ∃ place, t.at? place = some (r.binders, .var r.span r.name) := by
  rw [references_eq_parts, List.mem_append] at h
  rcases h with h | h
  · cases t with
    | var span x =>
      obtain rfl := List.mem_singleton.mp h
      exact ⟨[], rfl⟩
    | _ => cases h
  · obtain ⟨p, hp, hr⟩ := List.mem_flatMap.mp h
    obtain ⟨r', hr', rfl⟩ := List.mem_map.mp hr
    have hsmaller := sizeOf_part hp
    obtain ⟨place, hplace⟩ := exists_place_of_mem_references p.2 r' hr'
    obtain ⟨i, hi⟩ := mem_parts_iff.mp hp
    refine ⟨i :: place, ?_⟩
    rw [at?, hi]
    simp [hplace, within]
termination_by sizeOf t

/-- A variable at a place is a reference. -/
theorem mem_references_of_at? {place : Place} {binders : List (List Name)} {span : Option Span}
    {x : Name} (h : t.at? place = some (binders, .var span x)) :
    ⟨x, span, binders⟩ ∈ t.references := by
  induction place generalizing t binders with
  | nil =>
    cases h
    exact List.mem_singleton_self _
  | cons i place ih =>
    rw [at?] at h
    obtain ⟨⟨outer, u⟩, hi, hrest⟩ := Option.bind_eq_some_iff.mp h
    obtain ⟨⟨inner, v⟩, hu, hpure⟩ := Option.bind_eq_some_iff.mp hrest
    cases hpure
    rw [references_eq_parts, List.mem_append, List.mem_flatMap]
    exact .inr ⟨(outer, u), mem_parts_iff.mpr ⟨i, hi⟩, List.mem_map_of_mem (ih hu)⟩

/-- **The references are the variables at the places of the term**, each with the binders around
it. -/
theorem mem_references_iff : r ∈ t.references ↔
    ∃ place, t.at? place = some (r.binders, .var r.span r.name) :=
  ⟨exists_place_of_mem_references t r, fun ⟨_, h⟩ => mem_references_of_at? h⟩

end Term

/-! ## Free references are free occurrences -/

mutual

theorem Term.free_references : ∀ t : Term, free t.references = t.freeOccurrences
  | .literal .. => rfl
  | .var .. => rfl
  | .lambda _ _ h body => by
    rw [Term.references, Term.freeOccurrences, free_within, Term.free_references body]
  | .app _ func args => by
    rw [Term.references, Term.freeOccurrences, free_append, Term.free_references func,
      Term.free_referencesOfAll args]
  | .letIn _ x value body => by
    rw [Term.references, Term.freeOccurrences, free_append, free_within,
      Term.free_references value, Term.free_references body]
  | .letRec _ _ functions body => by
    rw [Term.references, Term.freeOccurrences, free_within, free_append,
      Term.free_referencesOfGroup functions, Term.free_references body]
  | .ifThenElse _ c a b => by
    rw [Term.references, Term.freeOccurrences, free_append, free_append,
      Term.free_references c, Term.free_references a, Term.free_references b]
  | .caseOf _ e alternatives => by
    rw [Term.references, Term.freeOccurrences, free_append, Term.free_references e,
      Term.free_referencesOfAlternatives alternatives]
  | .record _ fields => by
    rw [Term.references, Term.freeOccurrences, Term.free_referencesOfFields fields]
  | .field _ e _ => by rw [Term.references, Term.freeOccurrences, Term.free_references e]
  | .variant _ _ e => by rw [Term.references, Term.freeOccurrences, Term.free_references e]
  | .prim _ _ args => by
    rw [Term.references, Term.freeOccurrences, Term.free_referencesOfAll args]

theorem Term.free_referencesOfAll :
    ∀ ts : List Term, free (Term.referencesOfAll ts) = Term.occurrencesOfAll ts
  | [] => rfl
  | t :: ts => by
    rw [Term.referencesOfAll, Term.occurrencesOfAll, free_append, Term.free_references t,
      Term.free_referencesOfAll ts]

theorem Term.free_referencesOfGroup : ∀ functions : List (GroupHeader × Term),
    free (Term.referencesOfGroup functions) = Term.occurrencesOfGroup functions
  | [] => rfl
  | (g, body) :: rest => by
    rw [Term.referencesOfGroup, Term.occurrencesOfGroup, free_append, free_within,
      Term.free_references body, Term.free_referencesOfGroup rest]

theorem Term.free_referencesOfAlternatives : ∀ alternatives : List (Pattern × Term),
    free (Term.referencesOfAlternatives alternatives) = Term.occurrencesOfAlternatives alternatives
  | [] => rfl
  | (p, body) :: rest => by
    rw [Term.referencesOfAlternatives, Term.occurrencesOfAlternatives, free_append, free_within,
      Term.free_references body, Term.free_referencesOfAlternatives rest]

theorem Term.free_referencesOfFields : ∀ fields : List (Name × Term),
    free (Term.referencesOfFields fields) = Term.occurrencesOfFields fields
  | [] => rfl
  | (_, t) :: rest => by
    rw [Term.referencesOfFields, Term.occurrencesOfFields, free_append, Term.free_references t,
      Term.free_referencesOfFields rest]

end

/-! ## The first of each name -/

namespace FreeVariable

/-- The first occurrence of each name. -/
def firstOfEach : List FreeVariable → List FreeVariable
  | [] => []
  | o :: rest => o :: (firstOfEach rest).filter (·.name != o.name)

/-- Nothing but occurrences of names that are not found yet is added. -/
theorem noteAll_eq (occurrences found : List FreeVariable) :
    noteAll occurrences found =
      ((firstOfEach occurrences).filter fun o => !found.any (·.name == o.name)).reverse ++ found := by
  induction occurrences generalizing found with
  | nil => rfl
  | cons o rest ih =>
    have hstep : noteAll (o :: rest) found = noteAll rest (note o.name o.span found) := rfl
    rw [hstep, ih, note, firstOfEach]
    by_cases hfound : found.any (·.name == o.name)
    · -- A name that is found already stays as it was found.
      rw [if_pos hfound, List.filter_cons_of_neg (by simp [hfound]), List.filter_filter]
      refine congrArg (fun kept => List.reverse kept ++ found) (List.filter_congr fun o' _ => ?_)
      by_cases hname : o'.name = o.name
      · rw [hname, hfound]
        rfl
      · rw [bne_iff_ne.mpr hname, Bool.and_true]
    · rw [if_neg hfound, List.filter_cons_of_pos (by simp [hfound]), List.filter_filter,
        List.reverse_cons, List.append_assoc]
      refine congrArg (fun kept => List.reverse kept ++ o :: found)
        (List.filter_congr fun o' _ => ?_)
      rw [List.any_cons, Bool.not_or, Bool.and_comm, Bool.beq_comm]
      rfl

theorem firstOfEach_nodup (occurrences : List FreeVariable) :
    ((firstOfEach occurrences).map (·.name)).Nodup := by
  induction occurrences with
  | nil => exact List.nodup_nil
  | cons o rest ih =>
    rw [firstOfEach, List.map_cons, List.nodup_cons]
    refine ⟨fun hmem => ?_, ih.sublist (List.filter_sublist.map _)⟩
    obtain ⟨o', ho', hname⟩ := List.mem_map.mp hmem
    have hother := (List.mem_filter.mp ho').2
    rw [hname, bne_self_eq_false] at hother
    cases hother

/-- The names that occur. -/
def names (occurrences : List FreeVariable) : Set Name := {x | ∃ o ∈ occurrences, o.name = x}

theorem names_append (l₁ l₂ : List FreeVariable) : names (l₁ ++ l₂) = names l₁ ∪ names l₂ := by
  ext x
  simp only [names, List.mem_append, or_and_right, exists_or]
  exact Iff.rfl

theorem names_outside (bound : List Name) (occurrences : List FreeVariable) :
    names (outside bound occurrences) = names occurrences \ {x | x ∈ bound} := by
  ext x
  simp only [names, mem_outside, Set.mem_sdiff, Set.mem_ofPred_eq]
  constructor
  · rintro ⟨o, ⟨ho, hbound⟩, rfl⟩
    exact ⟨⟨o, ho, rfl⟩, hbound⟩
  · rintro ⟨⟨o, ho, rfl⟩, hbound⟩
    exact ⟨o, ⟨ho, hbound⟩, rfl⟩

end FreeVariable

/-! ## The names of free variables -/

namespace Term

theorem freeVariables_eq_firstOfEach (t : Term) :
    t.freeVariables = firstOfEach (free t.references) := by
  rw [freeVariables_eq, noteAll_eq, List.append_nil, List.reverse_reverse, free_references]
  exact List.filter_eq_self.mpr fun _ _ => rfl

/-- The names of the free variables. -/
def freeNames (t : Term) : Set Name := names t.freeVariables

theorem freeNames_eq (t : Term) : t.freeNames = names t.freeOccurrences := by
  ext x
  exact exists_mem_freeVariables

theorem names_occurrencesOfAll (ts : List Term) :
    names (occurrencesOfAll ts) = ⋃ t ∈ ts, t.freeNames := by
  induction ts with
  | nil => simp [occurrencesOfAll, names]
  | cons t ts ih => simp [occurrencesOfAll, names_append, ih, freeNames_eq]

theorem names_occurrencesOfGroup (functions : List (GroupHeader × Term)) :
    names (occurrencesOfGroup functions) =
      ⋃ f ∈ functions, f.2.freeNames \ {x | x ∈ f.1.header.params} := by
  induction functions with
  | nil => simp [occurrencesOfGroup, names]
  | cons f rest ih =>
    rw [occurrencesOfGroup, names_append, names_outside, ih, ← freeNames_eq]
    simp

theorem names_occurrencesOfAlternatives (alternatives : List (Pattern × Term)) :
    names (occurrencesOfAlternatives alternatives) =
      ⋃ a ∈ alternatives, a.2.freeNames \ {x | x ∈ a.1.boundNames} := by
  induction alternatives with
  | nil => simp [occurrencesOfAlternatives, names]
  | cons a rest ih =>
    rw [occurrencesOfAlternatives, names_append, names_outside, ih, ← freeNames_eq]
    simp

theorem names_occurrencesOfFields (fields : List (Name × Term)) :
    names (occurrencesOfFields fields) = ⋃ f ∈ fields, f.2.freeNames := by
  induction fields with
  | nil => simp [occurrencesOfFields, names]
  | cons f rest ih =>
    rw [occurrencesOfFields, names_append, ih, ← freeNames_eq]
    simp

end Term

/-- **The usual equations of free names**, for some names of each term. -/
structure FreeNameEquations (free : Term → Set Name) : Prop where
  literal (span l) : free (.literal span l) = ∅
  var (span x) : free (.var span x) = {x}
  lambda (span id h body) : free (.lambda span id h body) = free body \ {x | x ∈ h.params}
  app (span func args) : free (.app span func args) = free func ∪ ⋃ a ∈ args, free a
  letIn (span x value body) : free (.letIn span x value body) = free value ∪ free body \ {x}
  letRec (span id functions body) : free (.letRec span id functions body) =
    ((⋃ f ∈ functions, free f.2 \ {x | x ∈ f.1.header.params}) ∪ free body) \
      {x | x ∈ functions.map (·.1.binder)}
  ifThenElse (span c a b) : free (.ifThenElse span c a b) = free c ∪ (free a ∪ free b)
  caseOf (span e alternatives) : free (.caseOf span e alternatives) =
    free e ∪ ⋃ a ∈ alternatives, free a.2 \ {x | x ∈ a.1.boundNames}
  record (span fields) : free (.record span fields) = ⋃ f ∈ fields, free f.2
  field (span e x) : free (.field span e x) = free e
  variant (span tag e) : free (.variant span tag e) = free e
  prim (span op args) : free (.prim span op args) = ⋃ a ∈ args, free a

theorem Term.freeNames_equations : FreeNameEquations Term.freeNames where
  literal span l := by simp [freeNames_eq, freeOccurrences, names]
  var span x := by
    ext y
    simp [freeNames_eq, freeOccurrences, names, eq_comm]
  lambda span id h body := by
    rw [freeNames_eq, freeNames_eq, freeOccurrences, names_outside]
  app span func args := by
    rw [freeNames_eq, freeNames_eq, freeOccurrences, names_append, names_occurrencesOfAll]
  letIn span x value body := by
    rw [freeNames_eq, freeNames_eq, freeNames_eq, freeOccurrences, names_append, names_outside]
    simp
  letRec span id functions body := by
    rw [freeNames_eq, freeOccurrences, names_outside, names_append, names_occurrencesOfGroup,
      ← freeNames_eq]
  ifThenElse span c a b := by
    rw [freeNames_eq, freeOccurrences, names_append, names_append, ← freeNames_eq, ← freeNames_eq,
      ← freeNames_eq]
  caseOf span e alternatives := by
    rw [freeNames_eq, freeOccurrences, names_append, names_occurrencesOfAlternatives,
      ← freeNames_eq]
  record span fields := by rw [freeNames_eq, freeOccurrences, names_occurrencesOfFields]
  field span e x := by rw [freeNames_eq, freeNames_eq, freeOccurrences]
  variant span tag e := by rw [freeNames_eq, freeNames_eq, freeOccurrences]
  prim span op args := by rw [freeNames_eq, freeOccurrences, names_occurrencesOfAll]

/-- **The free variables of a term are its first free references.**  References are told from left
to right, the functions of a group before its body, and they are the variables at the places of the
term with the binders around them.  Of those that are free the first of each name is kept, with its
span.  So no name comes up twice, and the names satisfy the usual equations. -/
theorem free_variables_first_references :
    (∀ (t : Term) (r : Reference), r ∈ t.references ↔
      ∃ place, t.at? place = some (r.binders, .var r.span r.name)) ∧
    (∀ t : Term, t.freeVariables = firstOfEach (free t.references)) ∧
    (∀ t : Term, (t.freeVariables.map (·.name)).Nodup) ∧
    FreeNameEquations Term.freeNames := by
  refine ⟨fun t r => Term.mem_references_iff, Term.freeVariables_eq_firstOfEach, fun t => ?_,
    Term.freeNames_equations⟩
  rw [Term.freeVariables_eq_firstOfEach]
  exact firstOfEach_nodup _

/-- A name that is free in the value and bound in the body, and one that is free after it. -/
example :
    let x : Name := ⟨1⟩
    let y : Name := ⟨2⟩
    let t : Term := .app none
      (.letIn none x (.var (some ⟨0, 1⟩) x) (.app none (.var none x) [.var (some ⟨2, 3⟩) y]))
      [.var (some ⟨4, 5⟩) y, .var (some ⟨6, 7⟩) x]
    t.freeVariables = [⟨x, some ⟨0, 1⟩⟩, ⟨y, some ⟨2, 3⟩⟩] := by decide

end CapLang
