import CapLang.Proofs.Matching
import CapLang.Proofs.RecordEquality

/-!
# Patterns that spell values

A pattern without wildcards and binders spells one value (`Pattern.value?`), and there are two ways
to ask whether a value is the one that it spells: to match it against the pattern, or to compare it
with that value.  A comparison asks for the same fields, whatever their order.  A match lets a
record have more of them, so it does the same once the fields that the pattern does not ask for are
left out (`Value.trimmedBy`).  Where the pattern asks for no record both ways are one
(`ground_pattern_and_equality`).

What is left of a record and what the pattern spells are compared by look-ups: each name finds on
one side what the pattern for the name spells, and on the other what the value has there, without
what this pattern does not ask for (`Pattern.field?_spelled`, `Pattern.field?_trimmedFields`).
-/
namespace CapLang

namespace Pattern

/-- The second pattern is found in the first one, at any depth. -/
inductive Contains : Pattern → Pattern → Prop
  | refl (p : Pattern) : Contains p p
  | payload (tag : Name) {p q : Pattern} (inside : Contains p q) : Contains (.variant tag p) q
  | field {ps : List (Name × Pattern)} {f : Name × Pattern} {q : Pattern} (mem : f ∈ ps)
      (inside : Contains f.2 q) : Contains (.record ps) q

/-- The pattern is made of literals, variants and records only. -/
def IsGround (p : Pattern) : Prop := ¬ p.Contains .wildcard ∧ ∀ x, ¬ p.Contains (.bind x)

/-- The fields of each record pattern have distinct names. -/
def Distinct (p : Pattern) : Prop := ∀ ps, p.Contains (.record ps) → (ps.map (·.1)).Nodup

/-- The pattern asks for no record. -/
def RecordFree (p : Pattern) : Prop := ∀ ps, ¬ p.Contains (.record ps)

mutual

/-- **The value that a pattern spells**, if it has no wildcard and no binder.  Comparisons do not
look at stamps, so all records of the value may have the same one. -/
def value? (stamp : Stamp) : Pattern → Option Value
  | .wildcard | .bind _ => none
  | .literal l => some (.ofLiteral l)
  | .variant t p => (p.value? stamp).map (.variant t)
  | .record ps => (fieldValues? stamp ps).map (.ofFields stamp)

/-- The fields that the patterns of some fields spell. -/
def fieldValues? (stamp : Stamp) : List (Name × Pattern) → Option (List (Name × Value))
  | [] => some []
  | (x, p) :: rest =>
    (p.value? stamp).bind fun v => (fieldValues? stamp rest).map fun fields => (x, v) :: fields

end

end Pattern

mutual

/-- **The value without what the pattern does not ask for**: where a record meets a record pattern,
only the fields that this names are left. -/
def Value.trimmedBy : Value → Pattern → Value
  | .record stamp fields, .record ps => .ofFields stamp (Value.trimmedFields ps fields)
  | .variant t v, .variant _ p => .variant t (v.trimmedBy p)
  | v, _ => v

/-- The fields that have one of the names, each without what its pattern does not ask for. -/
def Value.trimmedFields (ps : List (Name × Pattern)) :
    List (Name × Value) → List (Name × Value)
  | [] => []
  | (x, v) :: rest =>
    match ps.lookup x with
    | some p => (x, v.trimmedBy p) :: Value.trimmedFields ps rest
    | none => Value.trimmedFields ps rest

end

theorem Value.Distinct.of_fields? {v : Value} {fields : List (Name × Value)} (h : v.Distinct)
    (hfields : v.fields? = some fields) :
    (fields.map (·.1)).Nodup ∧ ∀ f ∈ fields, f.2.Distinct := by
  obtain ⟨rfl, rfl⟩ | ⟨stamp, rfl⟩ := Value.fields?_eq_some_iff.mp hfields
  · exact ⟨.nil, nofun⟩
  · exact Value.distinct_record.mp h

namespace Pattern

variable {p q : Pattern} {u v w : Value} {x t : Name} {ps : List (Name × Pattern)}
  {us fields : List (Name × Value)} {s : Stamp}

/-! ## What patterns contain -/

theorem contains_variant : (variant t p).Contains q ↔ q = .variant t p ∨ p.Contains q := by
  constructor
  · intro h
    cases h with
    | refl => exact .inl rfl
    | payload _ inside => exact .inr inside
  · rintro (rfl | inside)
    · exact .refl _
    · exact .payload t inside

theorem contains_record :
    (record ps).Contains q ↔ q = .record ps ∨ ∃ f ∈ ps, f.2.Contains q := by
  constructor
  · intro h
    cases h with
    | refl => exact .inl rfl
    | field mem inside => exact .inr ⟨_, mem, inside⟩
  · rintro (rfl | ⟨f, mem, inside⟩)
    · exact .refl _
    · exact .field mem inside

@[simp] theorem isGround_literal (l : Literal) : (literal l).IsGround := by
  constructor
  · intro h
    cases h
  · intro x h
    cases h

@[simp] theorem isGround_variant : (variant t p).IsGround ↔ p.IsGround := by
  simp only [IsGround, contains_variant, reduceCtorEq, false_or]

@[simp] theorem isGround_record : (record ps).IsGround ↔ ∀ f ∈ ps, f.2.IsGround := by
  simp only [IsGround, contains_record, reduceCtorEq, false_or, not_exists, not_and]
  exact ⟨fun h f hf => ⟨h.1 f hf, fun x => h.2 x f hf⟩,
    fun h => ⟨fun f hf => (h f hf).1, fun x f hf => (h f hf).2 x⟩⟩

@[simp] theorem distinct_literal (l : Literal) : (literal l).Distinct := by
  intro ps h
  cases h

@[simp] theorem distinct_variant : (variant t p).Distinct ↔ p.Distinct := by
  simp only [Distinct, contains_variant, reduceCtorEq, false_or]

@[simp] theorem distinct_record :
    (record ps).Distinct ↔ (ps.map (·.1)).Nodup ∧ ∀ f ∈ ps, f.2.Distinct := by
  unfold Distinct
  simp only [contains_record, record.injEq]
  constructor
  · exact fun h => ⟨h ps (.inl rfl), fun f hf qs hqs => h qs (.inr ⟨f, hf, hqs⟩)⟩
  · rintro ⟨hnames, hfields⟩ qs (rfl | ⟨f, hf, hqs⟩)
    · exact hnames
    · exact hfields f hf qs hqs

/-! ## The value that is spelled -/

/-- The relation between a field of a pattern and the field that it spells. -/
def SpellsField (s : Stamp) (q : Name × Pattern) (f : Name × Value) : Prop :=
  f.1 = q.1 ∧ q.2.value? s = some f.2

theorem fieldValues?_eq_some_iff :
    fieldValues? s ps = some us ↔ List.Forall₂ (SpellsField s) ps us := by
  induction ps generalizing us with
  | nil => simp [fieldValues?, eq_comm]
  | cons q rest ih =>
    simp only [fieldValues?, Option.bind_eq_some_iff, Option.map_eq_some_iff, ih,
      List.forall₂_cons_left_iff]
    constructor
    · rintro ⟨v, hv, fields, hfields, rfl⟩
      exact ⟨(q.1, v), fields, ⟨rfl, hv⟩, hfields, rfl⟩
    · rintro ⟨⟨x, v⟩, fields, ⟨rfl, hv⟩, hfields, rfl⟩
      exact ⟨v, hv, fields, hfields, rfl⟩

theorem value?_variant (h : (variant t p).value? s = some u) :
    ∃ v, u = .variant t v ∧ p.value? s = some v := by
  rw [value?] at h
  obtain ⟨v, hv, rfl⟩ := Option.map_eq_some_iff.mp h
  exact ⟨v, rfl, hv⟩

theorem value?_record (h : (record ps).value? s = some u) :
    ∃ us, u = .ofFields s us ∧ List.Forall₂ (SpellsField s) ps us := by
  rw [value?] at h
  obtain ⟨us, hus, rfl⟩ := Option.map_eq_some_iff.mp h
  exact ⟨us, rfl, fieldValues?_eq_some_iff.mp hus⟩

theorem exists_spelled_fields (h : ∀ q ∈ ps, ∃ v, q.2.value? s = some v) :
    ∃ us, List.Forall₂ (SpellsField s) ps us := by
  induction ps with
  | nil => exact ⟨[], .nil⟩
  | cons q rest ih =>
    obtain ⟨⟨v, hv⟩, hrest⟩ := List.forall_mem_cons.mp h
    obtain ⟨us, hus⟩ := ih hrest
    exact ⟨(q.1, v) :: us, .cons ⟨rfl, hv⟩ hus⟩

/-- A pattern without wildcards and binders does spell a value. -/
theorem IsGround.exists_value (h : p.IsGround) (s : Stamp) : ∃ u, p.value? s = some u := by
  induction p using Pattern.induction with
  | wildcard => exact absurd (.refl _) h.1
  | bind x => exact absurd (.refl _) (h.2 x)
  | literal l => exact ⟨.ofLiteral l, by rw [value?]⟩
  | variant t p ih =>
    obtain ⟨v, hv⟩ := ih (isGround_variant.mp h)
    exact ⟨.variant t v, by rw [value?, hv, Option.map_some]⟩
  | record ps ih =>
    obtain ⟨us, hus⟩ := exists_spelled_fields fun q hq => ih q hq (isGround_record.mp h q hq)
    exact ⟨.ofFields s us, by rw [value?, fieldValues?_eq_some_iff.mpr hus, Option.map_some]⟩

theorem spelled_names (h : List.Forall₂ (SpellsField s) ps us) :
    us.map (·.1) = ps.map (·.1) := by
  rw [← List.forall₂_eq_eq_eq, List.forall₂_map_left_iff, List.forall₂_map_right_iff]
  exact h.flip.imp fun _ _ hf => hf.1

theorem value_is_distinct_data (hp : p.Distinct) (hu : p.value? s = some u) :
    u.Distinct ∧ u.IsData := by
  induction p using Pattern.induction generalizing u with
  | wildcard | bind => simp [value?] at hu
  | literal l =>
    rw [value?] at hu
    cases hu
    cases l <;> simp [Value.ofLiteral]
  | variant t p ih =>
    obtain ⟨v, rfl, hv⟩ := value?_variant hu
    simpa using ih (distinct_variant.mp hp) hv
  | record ps ih =>
    obtain ⟨us, rfl, hus⟩ := value?_record hu
    obtain ⟨hpatterns, hfields⟩ := distinct_record.mp hp
    have hparts : ∀ f ∈ us, f.2.Distinct ∧ f.2.IsData := fun f hf => by
      obtain ⟨q, hq, -, hv⟩ := exists_of_forall₂ hus.flip hf
      exact ih q hq (hfields q hq) hv
    have hnames : (us.map (·.1)).Nodup := spelled_names hus ▸ hpatterns
    cases us with
    | nil => exact ⟨Value.distinct_unit, Value.isData_unit⟩
    | cons f fs =>
      exact ⟨Value.distinct_record.mpr ⟨hnames, fun f hf => (hparts f hf).1⟩,
        Value.isData_record.mpr fun f hf => (hparts f hf).2⟩

/-! ## Look-ups -/

/-- Among distinct names the first pattern for a name is the only one. -/
theorem lookup_eq_some_iff_mem (hnames : (ps.map (·.1)).Nodup) :
    ps.lookup x = some q ↔ (x, q) ∈ ps := by
  rw [List.lookup_eq_some_iff]
  constructor
  · rintro ⟨before, after, rfl, -⟩
    exact List.mem_append_right before List.mem_cons_self
  · intro hmem
    obtain ⟨before, after, rfl⟩ := List.append_of_mem hmem
    refine ⟨before, after, rfl, fun r hr => ?_⟩
    rw [List.map_append, List.nodup_append] at hnames
    exact bne_iff_ne.mpr (hnames.2.2 _ (List.mem_map_of_mem hr) x List.mem_cons_self).symm

theorem field?_spelled (h : List.Forall₂ (SpellsField s) ps us) (x : Name) :
    Value.field? x us = (ps.lookup x).bind (value? s) := by
  induction h with
  | nil => rfl
  | @cons q f rest fields hf _ ih =>
    obtain ⟨y, p⟩ := q
    obtain ⟨y', v⟩ := f
    obtain ⟨rfl, hv⟩ := hf
    rw [Value.field?_cons, List.lookup_cons]
    by_cases hyx : y' = x
    · subst hyx
      simp [hv]
    · simp [hyx, beq_false_of_ne (Ne.symm hyx), ih]

theorem field?_trimmedFields (ps : List (Name × Pattern)) (fields : List (Name × Value))
    (x : Name) : Value.field? x (Value.trimmedFields ps fields) =
      (ps.lookup x).bind fun p => (Value.field? x fields).map (·.trimmedBy p) := by
  induction fields with
  | nil => simp [Value.trimmedFields, Value.field?]
  | cons f rest ih =>
    obtain ⟨y, v⟩ := f
    rw [Value.trimmedFields, Value.field?_cons]
    by_cases hyx : y = x
    · subst hyx
      cases hp : ps.lookup y with
      | some p => simp [Value.field?_cons]
      | none => simp [ih, hp]
    · cases hp : ps.lookup y with
      | some p => simp [Value.field?_cons, hyx, ih]
      | none => simp [hyx, ih]

theorem trimmedFields_names (ps : List (Name × Pattern)) (fields : List (Name × Value)) :
    ((Value.trimmedFields ps fields).map (·.1)).Sublist (fields.map (·.1)) := by
  induction fields with
  | nil => exact .refl _
  | cons f rest ih =>
    obtain ⟨y, v⟩ := f
    rw [Value.trimmedFields]
    cases ps.lookup y with
    | some p => exact ih.cons_cons y
    | none => exact ih.cons y

/-! ## Matches against ground patterns -/

theorem fits_variant_iff : (variant t p).Fits v ↔ ∃ w, v = .variant t w ∧ p.Fits w := by
  constructor
  · intro h
    cases h with
    | variant _ payload => exact ⟨_, rfl, payload⟩
  · rintro ⟨w, rfl, h⟩
    exact .variant t h

/-- A record pattern takes the value without fields for a record that has none. -/
theorem fits_record_iff : (record ps).Fits v ↔ ∃ fields, v.fields? = some fields ∧
    ∀ q ∈ ps, ∃ w, Value.field? q.1 fields = some w ∧ q.2.Fits w := by
  constructor
  · intro h
    cases h with
    | record _ part found fits =>
      exact ⟨_, rfl, fun q hq => ⟨part q.1, found q hq, fits q hq⟩⟩
    | unit => exact ⟨[], rfl, nofun⟩
  · rintro ⟨fields, hfields, h⟩
    obtain ⟨rfl, rfl⟩ | ⟨stamp, rfl⟩ := Value.fields?_eq_some_iff.mp hfields
    · cases ps with
      | nil => exact .unit
      | cons q rest =>
        obtain ⟨w, hw, -⟩ := h q List.mem_cons_self
        cases hw
    · exact .of_fields h

/-- A match does not see the order of fields. -/
theorem Fits.reordered (h : p.Fits v) (hv : v.Distinct) (hvw : v.Reordered w) : p.Fits w := by
  induction h generalizing w with
  | wildcard => exact .wildcard w
  | bind x => exact .bind x w
  | literal l =>
    cases l <;> (cases hvw; exact .literal _)
  | variant t _ ih =>
    cases hvw with
    | variant _ payload => exact .variant t (ih (Value.distinct_variant.mp hv) payload)
  | record stamp part found _ ih =>
    cases w with
    | record stamp' ys =>
      obtain ⟨hnames, hdistinct⟩ := Value.distinct_record.mp hv
      refine .of_fields fun q hq => ?_
      have hrel := hvw.field?_rel hnames q.1
      rw [found q hq] at hrel
      obtain ⟨w, hw, hreordered⟩ := Value.exists_of_rel_some hrel
      exact ⟨w, hw, ih q hq (hdistinct _ (Value.mem_of_field? (found q hq))) hreordered⟩
    | _ => cases hvw
  | unit =>
    cases hvw
    exact .unit

/-- A pattern matches the value that it spells. -/
theorem fits_value (hp : p.Distinct) (hu : p.value? s = some u) : p.Fits u := by
  induction p using Pattern.induction generalizing u with
  | wildcard | bind => simp [value?] at hu
  | literal l =>
    rw [value?] at hu
    cases hu
    exact .literal l
  | variant t p ih =>
    obtain ⟨v, rfl, hv⟩ := value?_variant hu
    exact .variant t (ih (distinct_variant.mp hp) hv)
  | record ps ih =>
    obtain ⟨us, rfl, hus⟩ := value?_record hu
    obtain ⟨hpatterns, hfields⟩ := distinct_record.mp hp
    refine fits_record_iff.mpr ⟨us, by cases us <;> rfl, fun q hq => ?_⟩
    obtain ⟨f, -, -, hv⟩ := exists_of_forall₂ hus hq
    refine ⟨f.2, ?_, ih q hq (hfields q hq) hv⟩
    rw [field?_spelled hus, (lookup_eq_some_iff_mem hpatterns).mpr hq]
    exact hv

/-! ## What is left out -/

theorem trimmedBy_literal (v : Value) (l : Literal) : v.trimmedBy (.literal l) = v := by
  cases v <;> rfl

theorem trimmedBy_record (h : v.fields? = some fields) (ps : List (Name × Pattern)) :
    ∃ stamp, v.trimmedBy (.record ps) = .ofFields stamp (Value.trimmedFields ps fields) := by
  obtain ⟨rfl, rfl⟩ | ⟨stamp, rfl⟩ := Value.fields?_eq_some_iff.mp h
  · exact ⟨⟨0⟩, rfl⟩
  · exact ⟨stamp, rfl⟩

theorem trimmedBy_of_no_record (h : v.fields? = none) (ps : List (Name × Pattern)) :
    v.trimmedBy (.record ps) = v := by
  cases v with
  | record stamp fields => cases h
  | _ => rfl

/-- Between a record and what is spelled, name by name. -/
theorem rel_trimmed_spelled_iff (hnames : (ps.map (·.1)).Nodup)
    (hus : List.Forall₂ (SpellsField s) ps us) :
    (∀ x, Option.Rel Value.Reordered (Value.field? x (Value.trimmedFields ps fields))
      (Value.field? x us)) ↔
    ∀ q ∈ ps, ∃ w, Value.field? q.1 fields = some w ∧
      ∃ u, q.2.value? s = some u ∧ (w.trimmedBy q.2).Reordered u := by
  simp only [field?_trimmedFields, field?_spelled hus]
  constructor
  · intro h q hq
    have hrel := h q.1
    obtain ⟨f, -, -, hf⟩ := exists_of_forall₂ hus hq
    rw [(lookup_eq_some_iff_mem hnames).mpr hq, Option.bind_some, Option.bind_some, hf,
      Value.rel_swap] at hrel
    obtain ⟨_, hmapped, hreordered⟩ := Value.exists_of_rel_some hrel
    obtain ⟨w, hw, rfl⟩ := Option.map_eq_some_iff.mp hmapped
    exact ⟨w, hw, f.2, hf, hreordered⟩
  · intro h x
    cases hq : ps.lookup x with
    | none => exact .none
    | some q =>
      obtain ⟨w, hw, u, hu, hreordered⟩ := h _ ((lookup_eq_some_iff_mem hnames).mp hq)
      rw [Option.bind_some, Option.bind_some, hw, hu]
      exact .some hreordered

/-- A record pattern asks for the record that it spells, if its fields do so for what they spell. -/
theorem fits_record_iff_reordered (hp : (record ps).Distinct)
    (hus : List.Forall₂ (SpellsField s) ps us) (hv : v.Distinct)
    (ih : ∀ q ∈ ps, ∀ w u, q.2.value? s = some u → w.Distinct →
      (q.2.Fits w ↔ (w.trimmedBy q.2).Reordered u)) :
    (record ps).Fits v ↔ (v.trimmedBy (.record ps)).Reordered (.ofFields s us) := by
  obtain ⟨hpatterns, -⟩ := distinct_record.mp hp
  rw [fits_record_iff]
  cases hrecord : v.fields? with
  | none =>
    rw [trimmedBy_of_no_record hrecord]
    refine iff_of_false (fun ⟨_, h, _⟩ => nomatch h) fun h => ?_
    cases us <;> (cases h; cases hrecord)
  | some fields =>
    -- From here on the record without fields is a record like any other.
    obtain ⟨hnames, hdistinct⟩ := hv.of_fields? hrecord
    obtain ⟨stamp, htrimmed⟩ := trimmedBy_record hrecord ps
    have hpart : ∀ q ∈ ps, ∀ w, Value.field? q.1 fields = some w →
        (q.2.Fits w ↔ ∃ u, q.2.value? s = some u ∧ (w.trimmedBy q.2).Reordered u) :=
      fun q hq w hw => by
        obtain ⟨f, -, -, hf⟩ := exists_of_forall₂ hus hq
        rw [ih q hq w f.2 hf (hdistinct _ (Value.mem_of_field? hw)), hf]
        simp only [Option.some.injEq, exists_eq_left']
    rw [htrimmed, Value.reordered_ofFields_iff,
      Value.reordered_record_iff (hnames.sublist (trimmedFields_names ps fields))
        (spelled_names hus ▸ hpatterns), rel_trimmed_spelled_iff hpatterns hus]
    simp only [Option.some.injEq, exists_eq_left']
    exact forall₂_congr fun q hq => exists_congr fun w => and_congr_right (hpart q hq w)

/-- **A match asks for the value that the pattern spells**, once what the pattern does not ask for
is left out. -/
theorem fits_iff_reordered (hp : p.Distinct) (hu : p.value? s = some u) (hv : v.Distinct) :
    p.Fits v ↔ (v.trimmedBy p).Reordered u := by
  induction p using Pattern.induction generalizing u v with
  | wildcard | bind => simp [value?] at hu
  | literal l =>
    obtain ⟨hdistinct, -⟩ := value_is_distinct_data hp hu
    have hfits : (literal l).Fits u := fits_value hp hu
    rw [trimmedBy_literal]
    constructor
    · intro h
      rw [value?] at hu
      cases hu
      cases h
      exact .refl _
    · exact fun h => hfits.reordered hdistinct h.symm
  | variant t p ih =>
    obtain ⟨u, rfl, hpayload⟩ := value?_variant hu
    have ihp := fun w (hw : w.Distinct) => ih (v := w) (distinct_variant.mp hp) hpayload hw
    rw [fits_variant_iff]
    constructor
    · rintro ⟨w, rfl, hfits⟩
      exact .variant t ((ihp w (Value.distinct_variant.mp hv)).mp hfits)
    · intro h
      cases v with
      | variant t' w =>
        rw [Value.trimmedBy] at h
        cases h with
        | variant _ payload =>
          exact ⟨w, rfl, (ihp w (Value.distinct_variant.mp hv)).mpr payload⟩
      | _ => cases h
  | record ps ih =>
    obtain ⟨us, rfl, hus⟩ := value?_record hu
    exact fits_record_iff_reordered hp hus hv fun q hq w u hu hw =>
      ih q hq ((distinct_record.mp hp).2 q hq) hu hw

/-- A pattern that asks for no record leaves nothing out. -/
theorem RecordFree.trimmedBy (h : p.RecordFree) (v : Value) : v.trimmedBy p = v := by
  induction p using Pattern.induction generalizing v with
  | wildcard | bind | literal => cases v <;> rfl
  | variant t p ih =>
    have hpayload : p.RecordFree := fun ps hps => h ps (.payload t hps)
    cases v with
    | variant t' w => rw [Value.trimmedBy, ih hpayload]
    | _ => rfl
  | record ps => exact absurd (.refl _) (h ps)

end Pattern

/-- **Matching a ground pattern is comparing with what it spells**, but for the fields that the
pattern does not ask for.  A value equal to the one that the pattern spells is matched.  The values
that are matched are those that become this value, up to the order of fields, when the records that
record patterns describe lose their further fields.  Without record patterns just the equal values
are matched. -/
theorem ground_pattern_and_equality (p : Pattern) (hground : p.IsGround) (hp : p.Distinct)
    (s : Stamp) :
    ∃ u, p.value? s = some u ∧ ∀ v : Value, v.Distinct → ∀ bs,
      (u.equals v = .ok true → (p.matchOnto v bs).1 = true) ∧
      ((p.matchOnto v bs).1 = true ↔ (v.trimmedBy p).Reordered u) ∧
      (p.RecordFree → ((p.matchOnto v bs).1 = true ↔ u.equals v = .ok true)) := by
  obtain ⟨u, hu⟩ := hground.exists_value s
  obtain ⟨hdistinct, hdata⟩ := Pattern.value_is_distinct_data hp hu
  refine ⟨u, hu, fun v hv bs => ?_⟩
  rw [Pattern.matchOnto_iff]
  refine ⟨fun hequal => ?_, Pattern.fits_iff_reordered hp hu hv, fun hfree => ?_⟩
  · obtain ⟨-, hreordered⟩ := (Value.equals_eq_true_iff hdistinct).mp hequal
    exact (Pattern.fits_value hp hu).reordered hdistinct hreordered
  · rw [Pattern.fits_iff_reordered hp hu hv, hfree.trimmedBy, Value.equals_eq_true_iff hdistinct]
    exact ⟨fun h => ⟨hdata, h.symm⟩, fun ⟨_, h⟩ => h.symm⟩

/-- A record with a function in a field too many, and with fields where the pattern has the record
without any.  It is matched and not equal. -/
theorem wider_record_matched :
    let p : Pattern := .record [(⟨1⟩, .literal .unit), (⟨2⟩, .record []),
      (⟨3⟩, .variant ⟨4⟩ (.literal (.int 7)))]
    let f : Value := .closure (.lambda ⟨0⟩ ⟨none, []⟩ (.literal none .unit)) .empty
    let v : Value := .record ⟨1⟩ [(⟨3⟩, .variant ⟨4⟩ (.int 7)), (⟨5⟩, f),
      (⟨2⟩, .record ⟨2⟩ [(⟨1⟩, .bool true)]), (⟨1⟩, .unit)]
    p.IsGround ∧ p.Distinct ∧ v.Distinct ∧ ∃ u, p.value? ⟨0⟩ = some u ∧
      (p.matchOnto v []).1 = true ∧ u.equals v = .ok false ∧
      (v.trimmedBy p).Reordered u ∧ u.equals (v.trimmedBy p) = .ok true := by
  intro p f v
  have hground : p.IsGround := by simp [p]
  have hp : p.Distinct := by simp [p]
  have hv : v.Distinct := by simp [v, f]
  obtain ⟨u, hu, h⟩ := ground_pattern_and_equality p hground hp ⟨0⟩
  have hmatched : (p.matchOnto v []).1 = true := rfl
  obtain ⟨-, hiff, -⟩ := h v hv []
  obtain rfl : Value.record ⟨0⟩ [(⟨1⟩, .unit), (⟨2⟩, .unit), (⟨3⟩, .variant ⟨4⟩ (.int 7))] = u :=
    Option.some.inj hu
  exact ⟨hground, hp, hv, _, hu, hmatched, rfl, hiff.mp hmatched, rfl⟩

end CapLang
