import CapLang.Proofs.Reordering

/-!
# Positions in values

A position is a way into a value: to the payload of a variant, or to the field of a record that has
a given name, and on from there.  A record whose fields have distinct names is known by what it has
under each name, whatever the order.  Two records of one size agree name by name as soon as each
field of the one has a partner in the other (`Value.partners_iff`): where names are distinct no
field of the other is left over.
-/
namespace CapLang.Value

/-- One step from a value to what it contains. -/
inductive Step
  | payload
  | field (x : Name)
deriving DecidableEq

/-- A way into a value, from the outside inwards. -/
abbrev Position := List Step

/-- What a step leads to.  Among fields of one name it is the first. -/
def inside? : Value → Step → Option Value
  | variant _ v, .payload => some v
  | record _ fields, .field x => field? x fields
  | _, _ => none

/-- **The part of a value at a position.** -/
def at? : Value → Position → Option Value
  | v, [] => some v
  | v, step :: rest => (v.inside? step).bind fun w => w.at? rest

variable {R : Value → Value → Prop} {xs ys : List (Name × Value)}

/-! ## Records by their names -/

theorem field?_cons {x y : Name} {v : Value} :
    field? x ((y, v) :: xs) = if y = x then some v else field? x xs := by
  by_cases hyx : y = x
  · simp [field?, hyx]
  · simp [field?, hyx]

theorem isSome_eq_of_rel {o₁ o₂ : Option Value} (h : Option.Rel R o₁ o₂) :
    o₁.isSome = o₂.isSome := by
  cases h <;> rfl

theorem exists_of_rel_some {v : Value} {o : Option Value} (h : Option.Rel R (some v) o) :
    ∃ w, o = some w ∧ R v w := by
  cases h with
  | some hvw => exact ⟨_, rfl, hvw⟩

/-- Only what is found counts, and either side may come first. -/
theorem rel_congr {R' : Value → Value → Prop} {o₁ o₂ : Option Value}
    (h : ∀ v ∈ o₁, ∀ w ∈ o₂, (R v w ↔ R' v w)) : Option.Rel R o₁ o₂ ↔ Option.Rel R' o₁ o₂ := by
  cases o₁ <;> cases o₂ <;> simp_all

theorem rel_swap (o₁ o₂ : Option Value) :
    Option.Rel R o₁ o₂ ↔ Option.Rel (flip R) o₂ o₁ := by
  cases o₁ <;> cases o₂ <;> simp [flip]

theorem names_perm_of_rel (hxs : (xs.map (·.1)).Nodup) (hys : (ys.map (·.1)).Nodup)
    (h : ∀ x, Option.Rel R (field? x xs) (field? x ys)) :
    (xs.map (·.1)).Perm (ys.map (·.1)) := by
  refine (List.perm_ext_iff_of_nodup hxs hys).mpr fun x => ?_
  rw [← field?_isSome, ← field?_isSome, isSome_eq_of_rel (h x)]

/-- Names that are all found among equally many leave none over. -/
theorem names_perm_of_found (hxs : (xs.map (·.1)).Nodup) (hlength : xs.length = ys.length)
    (h : ∀ f ∈ xs, (field? f.1 ys).isSome) : (xs.map (·.1)).Perm (ys.map (·.1)) := by
  have hsub : xs.map (·.1) ⊆ ys.map (·.1) := fun x hx => by
    obtain ⟨f, hf, rfl⟩ := List.mem_map.mp hx
    exact field?_isSome.mp (h f hf)
  refine (List.subperm_of_subset hxs hsub).perm_of_length_le ?_
  simp only [List.length_map, hlength, Nat.le_refl]

/-- **Records agree name by name** if they have equally many fields and each field of the one has a
partner in the other. -/
theorem partners_iff (hxs : (xs.map (·.1)).Nodup) (hys : (ys.map (·.1)).Nodup) :
    (xs.length = ys.length ∧ ∀ f ∈ xs, ∃ w, field? f.1 ys = some w ∧ R f.2 w) ↔
      ∀ x, Option.Rel R (field? x xs) (field? x ys) := by
  constructor
  · rintro ⟨hlength, h⟩ x
    have hperm := names_perm_of_found hxs hlength fun f hf => by
      obtain ⟨w, hw, -⟩ := h f hf
      rw [hw]
      rfl
    cases hv : field? x xs with
    | some v =>
      obtain ⟨w, hw, hvw⟩ := h _ (mem_of_field? hv)
      rw [hw]
      exact .some hvw
    | none =>
      cases hw : field? x ys with
      | none => exact .none
      | some w =>
        have hx : x ∈ ys.map (·.1) := field?_isSome.mp (Option.isSome_of_mem hw)
        have hfound := field?_isSome.mpr (hperm.mem_iff.mpr hx)
        rw [hv] at hfound
        cases hfound
  · intro h
    refine ⟨?_, fun f hf => ?_⟩
    · simpa only [List.length_map] using (names_perm_of_rel hxs hys h).length_eq
    · have hfield := h f.1
      rw [(field?_eq_some_iff hxs).mpr hf] at hfield
      exact exists_of_rel_some hfield

/-- Records whose names are distinct are reorderings of each other if they are so name by name. -/
theorem reordered_record_iff {s₁ s₂ : Stamp} (hxs : (xs.map (·.1)).Nodup)
    (hys : (ys.map (·.1)).Nodup) : (record s₁ xs).Reordered (record s₂ ys) ↔
      ∀ x, Option.Rel Reordered (field? x xs) (field? x ys) := by
  constructor
  · exact fun h => h.field?_rel hxs
  · intro h
    obtain ⟨hlength, hpartners⟩ := (partners_iff hxs hys).mpr h
    refine .of_fields hxs (Nat.le_of_eq hlength.symm) fun f hf => ?_
    obtain ⟨w, hw, hvw⟩ := hpartners f hf
    exact ⟨(f.1, w), mem_of_field? hw, rfl, hvw⟩

/-- The record without fields is a reordering of no other. -/
theorem reordered_ofFields_iff {s₁ s₂ : Stamp} :
    (ofFields s₁ xs).Reordered (ofFields s₂ ys) ↔ (record s₁ xs).Reordered (record s₂ ys) := by
  cases xs with
  | nil =>
    cases ys with
    | nil => exact iff_of_true .unit (.record s₁ s₂ .nil (.refl []))
    | cons g gs => exact iff_of_false nofun fun h => nomatch h.length_eq
  | cons f fs =>
    cases ys with
    | nil => exact iff_of_false nofun fun h => nomatch h.length_eq
    | cons g gs => exact Iff.rfl

end CapLang.Value
