import CapLang.Operator.Apply
import Mathlib.Algebra.Ring.Int.Defs
import Mathlib.Algebra.Ring.Nat

/-!
# Exact integers

A checked operation works out its result among all integers, and `Checked.ofInt?` gives the 64-bit
integer that stands for it if there is one (`ofInt?_eq_some_iff`).  So an operation is exact as soon
as it is `Checked.ofInt?` of the right integer.  For powers this takes an argument, since a power is
not worked out when its size alone rules it out (`Checked.pow_eq`).

The operator for powers refuses exponents of more than 32 bits as overflows.  For all bases but 0, 1
and -1 they are.
-/
namespace CapLang

namespace Checked

/-- The end of the range that an integer fits in, as a power. -/
theorem inRange_iff {n : Int} :
    Int64.minValue.toInt ≤ n ∧ n ≤ Int64.maxValue.toInt ↔ -2 ^ 63 ≤ n ∧ n < 2 ^ 63 := by
  rw [Int64.toInt_minValue, Int64.toInt_maxValue]
  omega

theorem ofInt?_eq_some_iff {n : Int} {r : Int64} : ofInt? n = some r ↔ r.toInt = n := by
  unfold ofInt?
  split
  · next h =>
    obtain ⟨hmin, hmax⟩ := inRange_iff.mp h
    rw [Option.some.injEq]
    constructor
    · rintro rfl
      exact Int64.toInt_ofInt_of_le hmin hmax
    · rintro rfl
      exact Int64.ofInt_toInt r
  · next h =>
    refine ⟨nofun, ?_⟩
    rintro rfl
    exact absurd (inRange_iff.mpr ⟨r.le_toInt, r.toInt_lt⟩) h

theorem ofInt?_eq_none_iff {n : Int} : ofInt? n = none ↔ ∀ r : Int64, r.toInt ≠ n := by
  rw [Option.eq_none_iff_forall_ne_some]
  exact forall_congr' fun r => not_congr ofInt?_eq_some_iff

/-! ## Powers -/

/-- Other bases than 0, 1 and -1 have large powers. -/
theorem two_pow_le_natAbs_pow {b : Int} (hb : 1 < b.natAbs) {e : Nat} (he : 64 ≤ e) :
    2 ^ 64 ≤ (b ^ e).natAbs := by
  rw [Int.natAbs_pow]
  calc 2 ^ 64 ≤ b.natAbs ^ 64 := Nat.pow_le_pow_left hb 64
    _ ≤ b.natAbs ^ e := Nat.pow_le_pow_right (by omega) he

theorem ofInt?_pow_eq_none {b : Int} (hb : 1 < b.natAbs) {e : Nat} (he : 64 ≤ e) :
    ofInt? (b ^ e) = none := by
  refine ofInt?_eq_none_iff.mpr fun r hr => ?_
  have hlarge := two_pow_le_natAbs_pow hb he
  have hmin := r.le_toInt
  have hmax := r.toInt_lt
  rw [← hr] at hlarge
  omega

/-- The powers of 0, 1 and -1 repeat from the first on. -/
theorem pow_of_natAbs_le_one {b : Int} (hb : b.natAbs ≤ 1) (e : Nat) :
    b ^ (if e = 0 then 0 else 2 - e % 2) = b ^ e := by
  by_cases he : e = 0
  · rw [if_pos he, he]
  · rw [if_neg he]
    obtain rfl | rfl | rfl : b = 0 ∨ b = 1 ∨ b = -1 := by omega
    · rw [Int.zero_pow (by omega), Int.zero_pow he]
    · rw [Int.one_pow, Int.one_pow]
    · -- The square of -1 is 1, so only the parity of the exponent counts.
      have hsquare (k : Nat) : (-1 : Int) ^ (2 * k) = 1 := by
        rw [Int.pow_mul, show (-1 : Int) ^ 2 = 1 from rfl, Int.one_pow]
      rcases Nat.mod_two_eq_zero_or_one e with heven | hodd
      · obtain ⟨k, rfl⟩ : ∃ k, e = 2 * k := ⟨e / 2, by omega⟩
        rw [heven, hsquare k]
        rfl
      · obtain ⟨k, rfl⟩ : ∃ k, e = 2 * k + 1 := ⟨e / 2, by omega⟩
        rw [hodd, Int.pow_succ _ (2 * k), hsquare k]
        rfl

theorem natAbs_pow_le_one {b : Int} (hb : b.natAbs ≤ 1) (e : Nat) : (b ^ e).natAbs ≤ 1 := by
  rw [Int.natAbs_pow]
  calc b.natAbs ^ e ≤ 1 ^ e := Nat.pow_le_pow_left hb e
    _ = 1 := Nat.one_pow e

/-- **A power is worked out exactly, or it does not fit.** -/
theorem pow_eq (a : Int64) (e : Nat) : pow a e = ofInt? (a.toInt ^ e) := by
  unfold pow
  split
  · next hsmall => exact congrArg ofInt? (pow_of_natAbs_le_one hsmall e)
  · next hlarge =>
    split
    · rfl
    · next he => exact (ofInt?_pow_eq_none (by omega) (by omega)).symm

end Checked

theorem Fault.ofCause_injective : Function.Injective Fault.ofCause :=
  fun _ _ h => congrArg Fault.cause h

namespace Operator

/-- Operators that depend on their operands alone raise faults that are nothing but causes. -/
theorem mapError_eq_ok_iff {x : Except Cause Value} {v : Value} :
    x.mapError Fault.ofCause = .ok v ↔ x = .ok v := by
  cases x <;> simp [Except.mapError]

theorem mapError_eq_error_iff {x : Except Cause Value} {cause : Cause} :
    x.mapError Fault.ofCause = .error (.ofCause cause) ↔ x = .error cause := by
  cases x <;> simp [Except.mapError, Fault.ofCause_injective.eq_iff]

theorem exact_eq_ok_iff {operation : String} {x : Option Int64} {r : Int64} :
    exact operation x = .ok (.int r) ↔ x = some r := by
  cases x <;> simp [exact]

theorem exact_eq_error_iff {operation : String} {x : Option Int64} :
    exact operation x = .error (.integerOverflow operation) ↔ x = none := by
  cases x <;> simp [exact]

theorem power_of_neg {a n : Int64} (h : n < 0) : power a n = .error .negativeExponent := if_pos h

/-- An exponent of more than 32 bits is refused. -/
theorem power_of_wide {a n : Int64} (h : UInt32.size ≤ n.toInt) :
    power a n = .error (.integerOverflow "exponentiation") := by
  have hneg : ¬ n < 0 := by
    rw [Int64.lt_iff_toInt_lt, Int64.toInt_zero]
    omega
  rw [power, if_neg hneg, if_neg (Int.not_lt.mpr h)]

/-- The power is exact if the exponent has 32 bits, or if a wider one is bound to overflow. -/
theorem power_eq {a n : Int64} (h : 0 ≤ n) (hexact : n.toInt < UInt32.size ∨ 1 < a.toInt.natAbs) :
    power a n = exact "exponentiation" (Checked.ofInt? (a.toInt ^ n.toInt.toNat)) := by
  have hneg : ¬ n < 0 := Int64.not_lt.mpr h
  rcases Int.lt_or_le n.toInt UInt32.size with hnarrow | hwide
  · rw [power, if_neg hneg, if_pos hnarrow, Checked.pow_eq]
  · have hlarge : 1 < a.toInt.natAbs := hexact.resolve_left (Int.not_lt.mpr hwide)
    have hexponent : 64 ≤ n.toInt.toNat := by
      have hsize : UInt32.size = 4294967296 := rfl
      omega
    rw [power_of_wide hwide, Checked.ofInt?_pow_eq_none hlarge hexponent, exact]

end Operator

/-- **Powers are exact, but for wide exponents of small bases.**  A negative exponent is refused.
Otherwise the power is given if it fits 64 bits, and it overflows if it does not, provided that the
exponent has 32 bits or that the base is none of 0, 1 and -1.  For these bases a wider exponent
counts as an overflow, although the power fits. -/
theorem power_exact_or_wide (cx : Context) (w : World) (a n : Int64) :
    let answer := (Operator.intPow.apply cx [.int a, .int n] w).1
    let exact : Int := a.toInt ^ n.toInt.toNat
    let overflow : Except Fault Value := .error (.ofCause (.integerOverflow "exponentiation"))
    (n < 0 → answer = .error (.ofCause .negativeExponent)) ∧
    (0 ≤ n → n.toInt < UInt32.size ∨ 1 < a.toInt.natAbs →
      (∀ r, answer = .ok (.int r) ↔ r.toInt = exact) ∧
      (answer = overflow ↔ ∀ r : Int64, r.toInt ≠ exact)) ∧
    (UInt32.size ≤ n.toInt → a.toInt.natAbs ≤ 1 →
      answer = overflow ∧ ∃ r : Int64, r.toInt = exact) := by
  intro answer exact overflow
  have hanswer : answer = (Operator.power a n).mapError Fault.ofCause := rfl
  refine ⟨fun hneg => ?_, fun hn hexact => ?_, fun hwide hsmall => ?_⟩
  · rw [hanswer, Operator.mapError_eq_error_iff]
    exact Operator.power_of_neg hneg
  · rw [hanswer, Operator.power_eq hn hexact]
    refine ⟨fun r => ?_, ?_⟩
    · rw [Operator.mapError_eq_ok_iff, Operator.exact_eq_ok_iff, Checked.ofInt?_eq_some_iff]
    · rw [Operator.mapError_eq_error_iff, Operator.exact_eq_error_iff, Checked.ofInt?_eq_none_iff]
  · refine ⟨?_, Int64.ofInt exact, ?_⟩
    · rw [hanswer, Operator.mapError_eq_error_iff]
      exact Operator.power_of_wide hwide
    · have hle := Checked.natAbs_pow_le_one hsmall n.toInt.toNat
      exact Int64.toInt_ofInt_of_le (by omega) (by omega)

/-- The first power of 1 with a wider exponent is 1, and it is refused. -/
theorem wide_power_of_one_refused :
    let answer := (Operator.intPow.apply ⟨.initial, .empty, World.invoke⟩
      [.int 1, .int 4294967296] (.ofInput ByteArray.empty)).1
    answer = .error (.ofCause (.integerOverflow "exponentiation")) ∧
      (1 : Int64).toInt = (1 : Int64).toInt ^ (4294967296 : Int64).toInt.toNat := by
  intro answer
  refine ⟨rfl, ?_⟩
  rw [show (1 : Int64).toInt = 1 from rfl, Int.one_pow]

end CapLang
