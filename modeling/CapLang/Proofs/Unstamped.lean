import CapLang.Proofs.Alike

/-!
# Values without their stamps

Stamps tell frames and records apart that were made at different times; two runs of a program give
different ones.  `Value.unstamped` replaces all of them by one and the same, deep within records and
within the environments that functions remember, so that values are equal without their stamps if
they differ in nothing but identity.  Look-ups and bindings go along with this.
-/
namespace CapLang

open Value (Fieldwise Faithful)

mutual

/-- **The value with one and the same stamp everywhere.** -/
def Value.unstamped : Value → Value
  | .closure code env => .closure code env.unstamped
  | .record _ fields => .record ⟨0⟩ (Value.unstampedFields fields)
  | .variant tag payload => .variant tag payload.unstamped
  | v => v

/-- The environment with one and the same stamp everywhere. -/
def Env.unstamped : Env → Env
  | .empty => .empty
  | .frame _ bindings outer => .frame ⟨0⟩ (Value.unstampedFields bindings) outer.unstamped

/-- Fields with one and the same stamp everywhere. -/
def Value.unstampedFields : List (Name × Value) → List (Name × Value)
  | [] => []
  | (x, v) :: rest => (x, v.unstamped) :: Value.unstampedFields rest

end

namespace Value

theorem unstampedFields_eq (fields : List (Name × Value)) :
    unstampedFields fields = fields.map fun f => (f.1, f.2.unstamped) := by
  induction fields with
  | nil => rfl
  | cons f rest ih => rw [unstampedFields, List.map_cons, ih]

theorem field?_unstampedFields (x : Name) (fields : List (Name × Value)) :
    field? x (unstampedFields fields) = (field? x fields).map unstamped := by
  rw [unstampedFields_eq, field?, field?, List.find?_map, Option.map_map, Option.map_map]
  rfl

theorem unstampedFields_reverse (fields : List (Name × Value)) :
    (unstampedFields fields).reverse = unstampedFields fields.reverse := by
  rw [unstampedFields_eq, unstampedFields_eq, List.map_reverse]

end Value

namespace Env

theorem unstamped_extendMany (env : Env) (stamp : Stamp) (bindings : List (Name × Value)) :
    (env.extendMany stamp bindings).unstamped =
      env.unstamped.extendMany ⟨0⟩ (Value.unstampedFields bindings) := by
  cases bindings <;> rfl

theorem lookup_unstamped (env : Env) (x : Name) :
    env.unstamped.lookup x = (env.lookup x).map Value.unstamped := by
  match env with
  | empty => rfl
  | frame stamp bindings outer =>
    rw [unstamped, lookup_frame, lookup_frame, lookup_unstamped outer x,
      Value.unstampedFields_reverse, Value.field?_unstampedFields, Option.map_or]

end Env

/-! ## Twins -/

/-- If the value is a handle, it is one of those that are lent. -/
def Value.HoldsOnly (lent : Handle → Prop) : Value → Prop
  | capability h => lent h
  | _ => True

/-- **Values that are equal without their stamps**, and hold no handles but those that are lent. -/
structure Value.Twin (lent : Handle → Prop) (v w : Value) : Prop where
  same : v.unstamped = w.unstamped
  holds : v.All (Value.HoldsOnly lent)

/-- Environments that are equal without their stamps, and hold no handles but those that are
lent. -/
structure Env.Twin (lent : Handle → Prop) (env₁ env₂ : Env) : Prop where
  same : env₁.unstamped = env₂.unstamped
  holds : env₁.All (Value.HoldsOnly lent)

variable {lent : Handle → Prop}

namespace Value

theorem twin_of_isScalar {v : Value} (h : v.isScalar) : Twin lent v v := by
  refine ⟨rfl, fun u hu => ?_⟩
  rw [parts_of_isFlat (isFlat_of_isScalar h), List.mem_singleton] at hu
  subst hu
  cases u <;> trivial

theorem Twin.fields {fs gs : List (Name × Value)} (h : Fieldwise (Twin lent) fs gs) :
    unstampedFields fs = unstampedFields gs ∧ ∀ f ∈ fs, f.2.All (HoldsOnly lent) := by
  induction h with
  | nil => exact ⟨rfl, List.forall_mem_nil _⟩
  | cons head rest ih =>
    refine ⟨?_, List.forall_mem_cons.mpr ⟨head.holds, ih.2⟩⟩
    rw [unstampedFields, unstampedFields, head.same, ih.1]

theorem fieldwise_twin {fs gs : List (Name × Value)}
    (h : unstampedFields fs = unstampedFields gs) (hall : ∀ f ∈ fs, f.2.All (HoldsOnly lent)) :
    Fieldwise (Twin lent) fs gs := by
  induction fs generalizing gs with
  | nil =>
    cases gs with
    | nil => exact .nil
    | cons g gs => cases h
  | cons f fs ih =>
    obtain ⟨x, v⟩ := f
    cases gs with
    | nil => cases h
    | cons g gs =>
      obtain ⟨y, w⟩ := g
      obtain ⟨hv, hfs⟩ := List.forall_mem_cons.mp hall
      rw [unstampedFields, unstampedFields, List.cons.injEq, Prod.mk.injEq] at h
      obtain ⟨⟨rfl, hsame⟩, hrest⟩ := h
      exact .cons ⟨hsame, hv⟩ (ih hrest hfs)

theorem twin_closure {code : Code} {env₁ env₂ : Env} :
    Twin lent (.closure code env₁) (.closure code env₂) ↔ Env.Twin lent env₁ env₂ := by
  constructor
  · intro h
    have hsame := h.same
    rw [unstamped, unstamped, closure.injEq] at hsame
    exact ⟨hsame.2, (all_closure.mp h.holds).2⟩
  · intro h
    refine ⟨?_, all_closure.mpr ⟨trivial, h.holds⟩⟩
    rw [unstamped, unstamped, h.same]

theorem twin_faithful : Faithful (Twin lent) := by
  intro v w h
  obtain ⟨hsame, hall⟩ := h
  cases v with
  | closure code env =>
    cases w with
    | closure code' env' =>
      rw [unstamped, unstamped, closure.injEq] at hsame
      obtain ⟨rfl, -⟩ := hsame
      exact .closure code env env'
    | _ => simp [unstamped] at hsame
  | record stamp fields =>
    cases w with
    | record stamp' fields' =>
      rw [unstamped, unstamped, record.injEq] at hsame
      refine .record stamp stamp' (fieldwise_twin hsame.2 fun f hf u hu => hall u ?_)
      exact List.mem_cons_of_mem _ (mem_partsOfFields.mpr ⟨f, hf, hu⟩)
    | _ => simp [unstamped] at hsame
  | variant tag payload =>
    cases w with
    | variant tag' payload' =>
      rw [unstamped, unstamped, variant.injEq] at hsame
      obtain ⟨rfl, hpayload⟩ := hsame
      exact .variant tag ⟨hpayload, fun u hu => hall u (List.mem_cons_of_mem _ hu)⟩
    | _ => simp [unstamped] at hsame
  | int n => cases w <;> simp [unstamped] at hsame; subst hsame; exact .int n
  | bool b => cases w <;> simp [unstamped] at hsame; subst hsame; exact .bool b
  | str s => cases w <;> simp [unstamped] at hsame; subst hsame; exact .str s
  | unit => cases w <;> simp [unstamped] at hsame; exact .unit
  | capability h => cases w <;> simp [unstamped] at hsame; subst hsame; exact .capability h

theorem Twin.ofFields {fs gs : List (Name × Value)} (h : Fieldwise (Twin lent) fs gs)
    (s₁ s₂ : Stamp) : Twin lent (.ofFields s₁ fs) (.ofFields s₂ gs) := by
  obtain ⟨hsame, hall⟩ := Twin.fields h
  constructor
  · cases h with
    | nil => rfl
    | cons head rest => exact congrArg (Value.record ⟨0⟩) hsame
  · intro u hu
    rcases parts_of_ofFields hu with rfl | ⟨f, hf, hu⟩
    · cases fs <;> trivial
    · exact hall f hf u hu

theorem Twin.variant {v w : Value} (h : Twin lent v w) (tag : Name) :
    Twin lent (.variant tag v) (.variant tag w) := by
  refine ⟨congrArg (Value.variant tag) h.same, fun u hu => ?_⟩
  rcases List.mem_cons.mp hu with rfl | hu
  · trivial
  · exact h.holds u hu

end Value

namespace Env.Twin

variable {env₁ env₂ : Env}

theorem empty : Env.Twin lent .empty .empty := ⟨rfl, nofun⟩

theorem lookup (h : Env.Twin lent env₁ env₂) (x : Name) :
    Option.Rel (Value.Twin lent) (env₁.lookup x) (env₂.lookup x) := by
  have hlookup := lookup_unstamped env₁ x
  rw [h.same, lookup_unstamped] at hlookup
  cases h₁ : env₁.lookup x with
  | none =>
    rw [h₁, Option.map_none, Option.map_eq_none_iff] at hlookup
    rw [hlookup]
    exact .none
  | some v =>
    rw [h₁, Option.map_some] at hlookup
    obtain ⟨w, h₂, hsame⟩ := Option.map_eq_some_iff.mp hlookup
    rw [h₂]
    exact .some ⟨hsame.symm, h.holds.lookup h₁⟩

theorem extendMany (h : Env.Twin lent env₁ env₂) (s₁ s₂ : Stamp) {bs₁ bs₂ : List (Name × Value)}
    (hbindings : Fieldwise (Value.Twin lent) bs₁ bs₂) :
    Env.Twin lent (env₁.extendMany s₁ bs₁) (env₂.extendMany s₂ bs₂) := by
  obtain ⟨hsame, hall⟩ := Value.Twin.fields hbindings
  refine ⟨?_, h.holds.extendMany s₁ hall⟩
  rw [unstamped_extendMany, unstamped_extendMany, h.same, hsame]

theorem bindGroup (h : Env.Twin lent env₁ env₂) (s₁ s₂ : Stamp) (id : CodeId)
    (functions : List (GroupHeader × Term)) :
    Env.Twin lent (env₁.bindGroup s₁ id functions) (env₂.bindGroup s₂ id functions) :=
  h.extendMany s₁ s₂ (Fieldwise.mapIdx functions (fun _ _ => rfl) fun _ _ =>
    Value.twin_closure.mpr h)

theorem ofCode (h : Env.Twin lent env₁ env₂) (s₁ s₂ : Stamp) (code : Code) :
    Env.Twin lent (env₁.ofCode s₁ code) (env₂.ofCode s₂ code) := by
  cases code with
  | lambda id header body => exact h
  | member id functions i => exact h.bindGroup s₁ s₂ id functions

end Env.Twin
end CapLang
