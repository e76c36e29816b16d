import CapLang.Proofs.Equality
import CapLang.Proofs.Positions

/-!
# Comparing records

A comparison of two records has an answer as soon as the comparisons of their common fields have
one.  They are equal if they have the same names and equal fields under each of them, and records
with other names are just not equal (`Value.equals_record_answers`, `Value.equals_record_iff`).

This leaves out the record without fields.  It is a value of a kind of its own, as field accesses
and patterns know, but a comparison takes it for no record: with a record that has fields it cannot
be compared (`records_compared`).
-/
namespace CapLang

namespace Value

variable {xs ys : List (Name × Value)}

/-- The fields of a record, of which there may be none. -/
def fields? : Value → Option (List (Name × Value))
  | unit => some []
  | record _ fields => some fields
  | _ => none

/-- The fields that two records have under one name are related. -/
def OnCommon (R : Value → Value → Prop) (xs ys : List (Name × Value)) : Prop :=
  ∀ x v w, (x, v) ∈ xs → (x, w) ∈ ys → R v w

/-- Both records have the same names. -/
def SameNames (xs ys : List (Name × Value)) : Prop :=
  ∀ x, x ∈ xs.map (·.1) ↔ x ∈ ys.map (·.1)

theorem onCommon_nil {R : Value → Value → Prop} : OnCommon R [] ys := fun _ _ _ hv => nomatch hv

/-- Where comparisons of common fields have an answer, so has that of the records. -/
theorem equals_record_answers (s₁ s₂ : Stamp)
    (h : OnCommon (fun v w => ∃ b, v.equals w = .ok b) xs ys) :
    ∃ b, (record s₁ xs).equals (record s₂ ys) = .ok b := by
  rw [equals]
  by_cases hlength : xs.length = ys.length
  · rw [if_pos hlength]
    by_cases htrue : equalsFields ys xs = .ok true
    · exact ⟨true, htrue⟩
    · obtain ⟨f, hf, ⟨-, hfalse⟩ | ⟨w, hw, hanswer, -⟩⟩ := equalsFields_decided htrue
      · exact ⟨false, hfalse⟩
      · rw [hanswer]
        exact h f.1 f.2 w hf (mem_of_field? hw)
  · rw [if_neg hlength]
    exact ⟨false, rfl⟩

/-- To agree name by name is to have the same names, and related fields under each of them. -/
theorem rel_field?_iff {R : Value → Value → Prop} (hxs : (xs.map (·.1)).Nodup)
    (hys : (ys.map (·.1)).Nodup) :
    (∀ x, Option.Rel R (field? x xs) (field? x ys)) ↔ SameNames xs ys ∧ OnCommon R xs ys := by
  constructor
  · intro h
    refine ⟨fun x => (names_perm_of_rel hxs hys h).mem_iff, fun x v w hv hw => ?_⟩
    have hfield := h x
    rw [(field?_eq_some_iff hxs).mpr hv, (field?_eq_some_iff hys).mpr hw] at hfield
    cases hfield with
    | some hvw => exact hvw
  · rintro ⟨hnames, hcommon⟩ x
    have hfound : (field? x xs).isSome ↔ (field? x ys).isSome := by
      rw [field?_isSome, field?_isSome]
      exact hnames x
    cases hv : field? x xs with
    | some v =>
      cases hw : field? x ys with
      | some w => exact .some (hcommon x v w (mem_of_field? hv) (mem_of_field? hw))
      | none => simp [hv, hw] at hfound
    | none =>
      cases hw : field? x ys with
      | some w => simp [hv, hw] at hfound
      | none => exact .none

/-- **Records with fields are equal** if they have the same names and equal fields. -/
theorem equals_record_iff (s₁ s₂ : Stamp) (hxs : (xs.map (·.1)).Nodup)
    (hys : (ys.map (·.1)).Nodup) :
    (record s₁ xs).equals (record s₂ ys) = .ok true ↔
      SameNames xs ys ∧ OnCommon (fun v w => v.equals w = .ok true) xs ys := by
  rw [← rel_field?_iff hxs hys, ← partners_iff hxs hys, ← equalsFields_eq_true_iff, equals]
  by_cases hlength : xs.length = ys.length
  · simp [hlength]
  · simp [hlength]

end Value

/-- A record is of the kind without fields or of the other one. -/
theorem Value.fields?_eq_some_iff {r : Value} {xs : List (Name × Value)} :
    r.fields? = some xs ↔ (r = .unit ∧ xs = []) ∨ ∃ stamp, r = .record stamp xs := by
  constructor
  · intro h
    cases r with
    | unit => exact .inl ⟨rfl, (Option.some.inj h).symm⟩
    | record stamp fields => exact .inr ⟨stamp, congrArg _ (Option.some.inj h)⟩
    | _ => cases h
  · rintro (⟨rfl, rfl⟩ | ⟨stamp, rfl⟩)
    · rfl
    · rfl

/-- **What a comparison of records comes to** if the values under their common names can be
compared.  Between records of one kind, both with fields or both without, there is an answer: they
are equal just if they have the same names and equal values under each of them.  Between a record
without fields and one with fields there is none, only a fault that speaks of two kinds. -/
theorem records_compared {r s : Value} {xs ys : List (Name × Value)} (hr : r.fields? = some xs)
    (hs : s.fields? = some ys) (hxs : (xs.map (·.1)).Nodup) (hys : (ys.map (·.1)).Nodup)
    (hcommon : Value.OnCommon (fun v w => ∃ b, v.equals w = .ok b) xs ys) :
    (r.typeName = s.typeName → ∃ b, r.equals s = .ok b ∧
      (b = true ↔ Value.SameNames xs ys ∧
        Value.OnCommon (fun v w => v.equals w = .ok true) xs ys)) ∧
    (r.typeName ≠ s.typeName →
      r.equals s = .error (.typeMismatch r.typeName s.typeName)) := by
  obtain ⟨rfl, rfl⟩ | ⟨s₁, rfl⟩ := Value.fields?_eq_some_iff.mp hr
  · obtain ⟨rfl, rfl⟩ | ⟨s₂, rfl⟩ := Value.fields?_eq_some_iff.mp hs
    · refine ⟨fun _ => ⟨true, rfl, ?_⟩, fun h => absurd rfl h⟩
      exact iff_of_true rfl ⟨fun _ => Iff.rfl, Value.onCommon_nil⟩
    · exact ⟨fun h => absurd h (by simp [Value.typeName]), fun _ => rfl⟩
  · obtain ⟨rfl, rfl⟩ | ⟨s₂, rfl⟩ := Value.fields?_eq_some_iff.mp hs
    · exact ⟨fun h => absurd h (by simp [Value.typeName]), fun _ => rfl⟩
    · refine ⟨fun _ => ?_, fun h => absurd rfl h⟩
      obtain ⟨b, hb⟩ := Value.equals_record_answers s₁ s₂ hcommon
      refine ⟨b, hb, ?_⟩
      rw [← Value.equals_record_iff s₁ s₂ hxs hys, hb, Except.ok.injEq]

/-- Records with one common field of two.  The record without fields cannot be compared with
either. -/
theorem two_records_compared :
    let r : Value := .record ⟨0⟩ [(⟨1⟩, .int 1), (⟨2⟩, .str "s")]
    let s : Value := .record ⟨1⟩ [(⟨3⟩, .bool true), (⟨1⟩, .int 1)]
    Value.OnCommon (fun v w => ∃ b, v.equals w = .ok b)
        [(⟨1⟩, .int 1), (⟨2⟩, .str "s")] [(⟨3⟩, .bool true), (⟨1⟩, .int 1)] ∧
      r.equals s = .ok false ∧
      Value.unit.equals r = .error (.typeMismatch "Unit" "Record") := by
  intro r s
  have hcommon : Value.OnCommon (fun v w => ∃ b, v.equals w = .ok b)
      [(⟨1⟩, .int 1), (⟨2⟩, .str "s")] [(⟨3⟩, .bool true), (⟨1⟩, .int 1)] := by
    intro x v w hv hw
    simp only [List.mem_cons, List.not_mem_nil, or_false, Prod.mk.injEq] at hv hw
    obtain ⟨rfl, rfl⟩ | ⟨rfl, rfl⟩ := hv
    · obtain ⟨hx, -⟩ | ⟨-, rfl⟩ := hw
      · cases hx
      · exact ⟨true, rfl⟩
    · obtain ⟨hx, -⟩ | ⟨hx, -⟩ := hw
      · cases hx
      · cases hx
  refine ⟨hcommon, ?_, ?_⟩
  · obtain ⟨b, hb, hiff⟩ :=
      (records_compared (r := r) (s := s) rfl rfl (by decide) (by decide) hcommon).1 rfl
    cases b with
    | false => exact hb
    | true =>
      have hname := ((hiff.mp rfl).1 ⟨2⟩).mp (by decide)
      revert hname
      decide
  · exact (records_compared (r := .unit) (s := r) rfl rfl (by decide) (by decide)
      Value.onCommon_nil).2 (by decide)

/-- The record without fields and one with a field have different names and no common ones, and
still there is no answer to whether they are equal. -/
theorem empty_record_incomparable :
    let s : Value := .record ⟨0⟩ [(⟨1⟩, .int 1)]
    Value.unit.fields? = some [] ∧ s.fields? = some [(⟨1⟩, .int 1)] ∧
      Value.OnCommon (fun v w => ∃ b, v.equals w = .ok b) [] [(⟨1⟩, .int 1)] ∧
      ¬ Value.SameNames [] [(⟨1⟩, .int 1)] ∧
      Value.unit.equals s = .error (.typeMismatch "Unit" "Record") := by
  intro s
  refine ⟨rfl, rfl, Value.onCommon_nil, fun hnames => ?_, rfl⟩
  have hmem := (hnames ⟨1⟩).mpr (by decide)
  cases hmem

end CapLang
