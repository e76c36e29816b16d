import CapLang.Environment
import CapLang.Matching

/-!
# Parts of values and environments

The parts of a value are the value, what its fields or its payload contain, and what the
environment of a function binds, at any depth.  Look-ups, field accesses and matches give parts of
what they look into; extending an environment adds the parts of the new bindings and no others.
-/
namespace CapLang

mutual

/-- The value and all values in it, those that functions remember included. -/
def Value.parts : Value → List Value
  | .closure code env => .closure code env :: env.parts
  | .record stamp fields => .record stamp fields :: Value.partsOfFields fields
  | .variant tag payload => .variant tag payload :: payload.parts
  | v => [v]

/-- The parts of all values that an environment binds. -/
def Env.parts : Env → List Value
  | .empty => []
  | .frame _ bindings outer => Value.partsOfFields bindings ++ outer.parts

/-- The parts of the values of some fields. -/
def Value.partsOfFields : List (Name × Value) → List Value
  | [] => []
  | (_, v) :: rest => v.parts ++ Value.partsOfFields rest

end

namespace Value

theorem mem_partsOfFields {u : Value} {fields : List (Name × Value)} :
    u ∈ partsOfFields fields ↔ ∃ f ∈ fields, u ∈ f.2.parts := by
  induction fields with
  | nil => simp [partsOfFields]
  | cons f rest ih =>
    obtain ⟨x, v⟩ := f
    simp only [partsOfFields, List.mem_append, ih, List.mem_cons, exists_eq_or_imp]

theorem parts_of_field? {x : Name} {fields : List (Name × Value)} {u v : Value}
    (h : field? x fields = some v) (hu : u ∈ v.parts) : u ∈ partsOfFields fields := by
  obtain ⟨f, hf, rfl⟩ := Option.map_eq_some_iff.mp h
  exact mem_partsOfFields.mpr ⟨f, List.mem_of_find?_eq_some hf, hu⟩

theorem field?_isSome {x : Name} {fields : List (Name × Value)} :
    (field? x fields).isSome ↔ x ∈ fields.map (·.1) := by
  rw [field?, Option.isSome_map, List.find?_isSome, List.mem_map]
  simp only [beq_iff_eq]

theorem field?_append (x : Name) (fs gs : List (Name × Value)) :
    field? x (fs ++ gs) = (field? x fs).or (field? x gs) := by
  simp only [field?, List.find?_append, Option.map_or]

theorem field?_reverse_eq_none {x : Name} {fields : List (Name × Value)}
    (h : x ∉ fields.map (·.1)) : field? x fields.reverse = none := by
  rw [← Option.not_isSome_iff_eq_none, field?_isSome, List.map_reverse, List.mem_reverse]
  exact h

theorem parts_of_ofFields {stamp : Stamp} {fields : List (Name × Value)} {u : Value}
    (hu : u ∈ (ofFields stamp fields).parts) :
    u = ofFields stamp fields ∨ ∃ f ∈ fields, u ∈ f.2.parts := by
  cases fields with
  | nil =>
    exact .inl (List.mem_singleton.mp hu)
  | cons f rest =>
    simp only [ofFields, parts, List.mem_cons] at hu
    exact hu.imp id mem_partsOfFields.mp

end Value

namespace Env

theorem parts_of_lookup {env : Env} {x : Name} {u v : Value} (h : env.lookup x = some v)
    (hu : u ∈ v.parts) : u ∈ env.parts := by
  match env with
  | empty => cases h
  | frame stamp bindings outer =>
    rw [lookup] at h
    rw [parts, List.mem_append]
    cases hfind : bindings.reverse.find? (·.1 == x) with
    | some b =>
      simp only [hfind, Option.some.injEq] at h
      have hmem := List.mem_reverse.mp (List.mem_of_find?_eq_some hfind)
      exact .inl (Value.mem_partsOfFields.mpr ⟨b, hmem, by rwa [h]⟩)
    | none =>
      simp only [hfind] at h
      exact .inr (parts_of_lookup h hu)

theorem mem_parts_extendMany {env : Env} {stamp : Stamp} {bindings : List (Name × Value)}
    {u : Value} : u ∈ (env.extendMany stamp bindings).parts ↔
      (∃ b ∈ bindings, u ∈ b.2.parts) ∨ u ∈ env.parts := by
  cases bindings with
  | nil => simp [extendMany]
  | cons b bs => rw [extendMany, parts, List.mem_append, Value.mem_partsOfFields]

/-- A group adds the functions of the group, each around the environment outside. -/
theorem parts_of_bindGroup {env : Env} {stamp : Stamp} {id : CodeId}
    {functions : List (GroupHeader × Term)} {u : Value}
    (hu : u ∈ (env.bindGroup stamp id functions).parts) :
    (∃ i, i < functions.length ∧ u = .closure (.member id functions i) env) ∨ u ∈ env.parts := by
  rw [bindGroup, mem_parts_extendMany] at hu
  rcases hu with ⟨b, hb, hu⟩ | hu
  · obtain ⟨i, hi, rfl⟩ := List.mem_mapIdx.mp hb
    rw [Value.parts, List.mem_cons] at hu
    exact hu.imp (fun h => ⟨i, hi, h⟩) fun h => h
  · exact .inr hu

/-! ## Names in scope -/

/-- The bindings of a frame come before those outside it, and the last of them comes first. -/
theorem lookup_frame (stamp : Stamp) (bindings : List (Name × Value)) (outer : Env) (x : Name) :
    (frame stamp bindings outer).lookup x =
      (Value.field? x bindings.reverse).or (outer.lookup x) := by
  rw [lookup, Value.field?]
  cases bindings.reverse.find? (·.1 == x) <;> rfl

theorem lookup_extendMany (env : Env) (stamp : Stamp) (bindings : List (Name × Value))
    (x : Name) : (env.extendMany stamp bindings).lookup x =
      (Value.field? x bindings.reverse).or (env.lookup x) := by
  cases bindings with
  | nil => rfl
  | cons b bs => exact lookup_frame stamp (b :: bs) env x

theorem contains_extendMany {env : Env} {stamp : Stamp} {bindings : List (Name × Value)}
    {x : Name} : (env.extendMany stamp bindings).contains x ↔
      x ∈ bindings.map (·.1) ∨ env.contains x := by
  cases bindings with
  | nil => simp [extendMany]
  | cons b bs =>
    rw [extendMany, contains, Bool.or_eq_true, List.any_eq_true, List.mem_map]
    simp only [beq_iff_eq]

/-- A group binds the names of its functions, in order. -/
theorem names_group (id : CodeId) (functions : List (GroupHeader × Term)) (env : Env) :
    (functions.mapIdx fun i f => (f.1.binder, Value.closure (.member id functions i) env)).map
      (·.1) = functions.map (·.1.binder) := by
  refine List.ext_getElem (by simp) fun i h₁ h₂ => ?_
  simp

theorem contains_bindGroup {env : Env} {stamp : Stamp} {id : CodeId}
    {functions : List (GroupHeader × Term)} {x : Name} :
    (env.bindGroup stamp id functions).contains x ↔
      x ∈ functions.map (·.1.binder) ∨ env.contains x := by
  rw [bindGroup, contains_extendMany, names_group]

/-- **The names in scope are those with a binding.** -/
theorem contains_iff (env : Env) (x : Name) : env.contains x ↔ (env.lookup x).isSome := by
  match env with
  | empty => exact iff_of_false Bool.false_ne_true Bool.false_ne_true
  | frame stamp bindings outer =>
    rw [lookup_frame, Option.isSome_or, Bool.or_eq_true, Value.field?_isSome, List.map_reverse,
      List.mem_reverse, ← contains_iff outer x, contains, Bool.or_eq_true, List.any_eq_true,
      List.mem_map]
    simp only [beq_iff_eq]

theorem not_contains_of_lookup {env : Env} {x : Name} (h : env.lookup x = none) :
    ¬ env.contains x := by
  rw [contains_iff, h]
  exact Bool.false_ne_true

end Env

/-! ## Matches -/

mutual

/-- **A match binds the names of the pattern, in order, to parts of the value.** -/
theorem Pattern.matchOnto_bindings : ∀ (p : Pattern) (v : Value) {bs bs' : List (Name × Value)},
    p.matchOnto v bs = (true, bs') → ∃ new, bs' = bs ++ new ∧ new.map (·.1) = p.boundNames ∧
      ∀ b ∈ new, ∀ u ∈ b.2.parts, u ∈ v.parts
  | .wildcard, v, bs, bs', h => by
    rw [Pattern.matchOnto] at h
    cases h
    exact ⟨[], (List.append_nil _).symm, rfl, nofun⟩
  | .bind x, v, bs, bs', h => by
    rw [Pattern.matchOnto] at h
    cases h
    refine ⟨[(x, v)], rfl, rfl, fun b hb u hu => ?_⟩
    rwa [List.mem_singleton.mp hb] at hu
  | .literal l, v, bs, bs', h => by
    rw [Pattern.matchOnto] at h
    obtain ⟨-, rfl⟩ := Prod.mk.inj h
    exact ⟨[], (List.append_nil _).symm, rfl, nofun⟩
  | .variant t p, v, bs, bs', h => by
    cases v with
    | variant u w =>
      rw [Pattern.matchOnto] at h
      by_cases htag : t = u
      · rw [if_pos htag] at h
        obtain ⟨new, hbs, hnames, hparts⟩ := Pattern.matchOnto_bindings p w h
        exact ⟨new, hbs, hnames, fun b hb u hu => List.mem_cons_of_mem _ (hparts b hb u hu)⟩
      · rw [if_neg htag] at h
        cases h
    | _ => simp [Pattern.matchOnto] at h
  | .record ps, v, bs, bs', h => by
    cases v with
    | record stamp fields =>
      rw [Pattern.matchOnto] at h
      obtain ⟨new, hbs, hnames, hparts⟩ := Pattern.matchFieldsOnto_bindings fields ps h
      exact ⟨new, hbs, hnames, fun b hb u hu => List.mem_cons_of_mem _ (hparts b hb u hu)⟩
    | unit =>
      rw [Pattern.matchOnto] at h
      obtain ⟨hempty, rfl⟩ := Prod.mk.inj h
      rw [List.isEmpty_iff.mp hempty]
      exact ⟨[], (List.append_nil _).symm, rfl, nofun⟩
    | _ => simp [Pattern.matchOnto] at h

theorem Pattern.matchFieldsOnto_bindings (fields : List (Name × Value)) :
    ∀ (ps : List (Name × Pattern)) {bs bs' : List (Name × Value)},
      Pattern.matchFieldsOnto fields ps bs = (true, bs') →
        ∃ new, bs' = bs ++ new ∧ new.map (·.1) = Pattern.boundNamesOfFields ps ∧
          ∀ b ∈ new, ∀ u ∈ b.2.parts, u ∈ Value.partsOfFields fields
  | [], bs, bs', h => by
    rw [Pattern.matchFieldsOnto] at h
    cases h
    exact ⟨[], (List.append_nil _).symm, rfl, nofun⟩
  | (x, p) :: rest, bs, bs', h => by
    rw [Pattern.matchFieldsOnto] at h
    cases hfield : Value.field? x fields with
    | none =>
      rw [hfield] at h
      cases h
    | some v =>
      simp only [hfield] at h
      cases hmatch : p.matchOnto v bs with
      | mk fits bs₁ =>
        cases fits with
        | false =>
          rw [hmatch] at h
          cases h
        | true =>
          simp only [hmatch] at h
          obtain ⟨new₁, rfl, hnames₁, hparts₁⟩ := Pattern.matchOnto_bindings p v hmatch
          obtain ⟨new₂, rfl, hnames₂, hparts₂⟩ := Pattern.matchFieldsOnto_bindings fields rest h
          -- A later field may bind a name again, and both bindings are kept.
          refine ⟨new₁ ++ new₂, List.append_assoc .., ?_, fun b hb u hu => ?_⟩
          · rw [List.map_append, hnames₁, hnames₂, Pattern.boundNamesOfFields]
          · rcases List.mem_append.mp hb with hb | hb
            · exact Value.parts_of_field? hfield (hparts₁ b hb u hu)
            · exact hparts₂ b hb u hu

end

theorem Pattern.match?_bindings {p : Pattern} {v : Value} {bindings : List (Name × Value)}
    (h : p.match? v = some bindings) : bindings.map (·.1) = p.boundNames ∧
      ∀ b ∈ bindings, ∀ u ∈ b.2.parts, u ∈ v.parts := by
  unfold Pattern.match? at h
  cases hmatch : p.matchOnto v [] with
  | mk fits bs =>
    cases fits with
    | false =>
      rw [hmatch] at h
      cases h
    | true =>
      rw [hmatch] at h
      cases h
      obtain ⟨new, rfl, hnames, hparts⟩ := Pattern.matchOnto_bindings p v hmatch
      exact ⟨hnames, hparts⟩

/-! ## What holds of all parts -/

/-- Everything in the value is good. -/
def Value.All (good : Value → Prop) (v : Value) : Prop := ∀ u ∈ v.parts, good u

/-- Everything in the environment is good. -/
def Env.All (good : Value → Prop) (env : Env) : Prop := ∀ u ∈ env.parts, good u

section All

variable {good : Value → Prop} {env : Env}

theorem Value.all_closure {code : Code} :
    (Value.closure code env).All good ↔ good (.closure code env) ∧ env.All good := by
  simp [Value.All, Env.All, Value.parts]

theorem Value.All.field {stamp : Stamp} {fields : List (Name × Value)} {x : Name} {v : Value}
    (h : (Value.record stamp fields).All good) (hx : Value.field? x fields = some v) :
    v.All good := fun u hu => h u (List.mem_cons_of_mem _ (Value.parts_of_field? hx hu))

theorem Value.All.bindings {v : Value} {p : Pattern} {bindings : List (Name × Value)}
    (h : v.All good) (hp : p.match? v = some bindings) : ∀ b ∈ bindings, b.2.All good :=
  fun b hb u hu => h u ((Pattern.match?_bindings hp).2 b hb u hu)

theorem Env.All.lookup {x : Name} {v : Value} (h : env.All good) (hx : env.lookup x = some v) :
    v.All good := fun u hu => h u (Env.parts_of_lookup hx hu)

theorem Env.All.extendMany (h : env.All good) (stamp : Stamp) {bindings : List (Name × Value)}
    (hb : ∀ b ∈ bindings, b.2.All good) : (env.extendMany stamp bindings).All good := by
  intro u hu
  rcases Env.mem_parts_extendMany.mp hu with ⟨b, hmem, hub⟩ | hu
  · exact hb b hmem u hub
  · exact h u hu

theorem Env.All.bindGroup (h : env.All good) (stamp : Stamp) {id : CodeId}
    {functions : List (GroupHeader × Term)}
    (hf : ∀ i, i < functions.length → good (.closure (.member id functions i) env)) :
    (env.bindGroup stamp id functions).All good := by
  intro u hu
  rcases Env.parts_of_bindGroup hu with ⟨i, hi, rfl⟩ | hu
  · exact hf i hi
  · exact h u hu

end All

/-! ## Values of which only the functions matter -/

namespace Value

/-- Neither a function nor a record nor a variant: a value that is its only part. -/
def isFlat : Value → Bool
  | closure .. | record .. | variant .. => false
  | _ => true

/-- A value that a literal spells. -/
def isScalar : Value → Bool
  | int _ | bool _ | str _ | unit => true
  | _ => false

theorem isFlat_of_isScalar {v : Value} (h : v.isScalar) : v.isFlat := by
  cases v <;> first | rfl | cases h

theorem literal_of_isScalar {v : Value} (h : v.isScalar) : ∃ l, v = ofLiteral l := by
  cases v with
  | int n => exact ⟨.int n, rfl⟩
  | bool b => exact ⟨.bool b, rfl⟩
  | str s => exact ⟨.str s, rfl⟩
  | unit => exact ⟨.unit, rfl⟩
  | _ => cases h

theorem parts_of_isFlat {v : Value} (h : v.isFlat) : v.parts = [v] := by
  cases v with
  | closure code env => cases h
  | record stamp fields => cases h
  | variant tag payload => cases h
  | _ => rfl

/-- If the value is a function, `P` holds of it. -/
def Functions (P : Code → Env → Prop) : Value → Prop
  | closure code env => P code env
  | _ => True

variable {P : Code → Env → Prop} {v : Value}

theorem functions_of_ne (h : ∀ code env, v ≠ closure code env) : v.Functions P := by
  cases v with
  | closure code env => exact absurd rfl (h code env)
  | _ => trivial

theorem functions_ofFields {stamp : Stamp} {fields : List (Name × Value)} :
    (ofFields stamp fields).Functions P := by
  cases fields <;> trivial

theorem functions_of_isFlat (h : v.isFlat) : v.All (Functions P) := by
  intro u hu
  rw [parts_of_isFlat h, List.mem_singleton] at hu
  subst hu
  exact functions_of_ne fun code env heq => by rw [heq] at h; cases h

/-- Of the parts of a value, only its functions have to be shown good. -/
theorem all_functions :
    v.All (Functions P) ↔ ∀ code env, closure code env ∈ v.parts → P code env := by
  constructor
  · exact fun h code env hmem => h _ hmem
  · intro h u hu
    cases u with
    | closure code env => exact h code env hu
    | _ => trivial

end Value
end CapLang
