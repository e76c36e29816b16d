import CapLang.Proofs.Integers

/-!
# Exact arithmetic

The arithmetic operators, powers apart, give the result that the operation has among all integers,
or overflow when it does not fit 64 bits (`ExactOrOverflow`).  Quotients are rounded towards zero,
and the remainder is what the quotient leaves over.  A quotient fits but for the least integer
divided by minus one (`Checked.inRange_tdiv_iff`).  A remainder always fits; still there is one only
where there is a quotient, so that both operators have an answer for the same operands.
-/
namespace CapLang

namespace Checked

/-- The integer fits 64 bits. -/
def InRange (n : Int) : Prop := -2 ^ 63 ≤ n ∧ n < 2 ^ 63

theorem toInt_inRange (a : Int64) : InRange a.toInt := ⟨a.le_toInt, a.toInt_lt⟩

theorem ofInt?_of_inRange {n : Int} (h : InRange n) : ∃ r, ofInt? n = some r ∧ r.toInt = n := by
  have hr : (Int64.ofInt n).toInt = n := Int64.toInt_ofInt_of_le h.1 h.2
  exact ⟨Int64.ofInt n, ofInt?_eq_some_iff.mpr hr, hr⟩

theorem ofInt?_of_not_inRange {n : Int} (h : ¬ InRange n) : ofInt? n = none := by
  refine ofInt?_eq_none_iff.mpr fun r hr => h ?_
  rw [← hr]
  exact toInt_inRange r

/-! ## Quotients and remainders -/

theorem toInt_ne_zero {b : Int64} (hb : b ≠ 0) : b.toInt ≠ 0 := by
  intro h
  exact hb (Int64.toInt_inj.mp (h.trans Int64.toInt_zero.symm))

/-- The operands that have no quotient although the divisor is not zero. -/
theorem least_by_minus_one_iff {a b : Int64} :
    a = Int64.minValue ∧ b = -1 ↔ a.toInt = -2 ^ 63 ∧ b.toInt = -1 := by
  rw [← Int64.toInt_inj, ← Int64.toInt_inj, Int64.toInt_minValue]
  rfl

/-- **The one quotient that does not fit.**  A divisor other than 0, 1 and -1 at least halves the
dividend, so only a negated dividend can be too large. -/
theorem inRange_tdiv_iff {a b : Int64} :
    InRange (a.toInt.tdiv b.toInt) ↔ ¬ (a = Int64.minValue ∧ b = -1) := by
  rw [least_by_minus_one_iff]
  obtain ⟨hlow, hhigh⟩ := toInt_inRange a
  unfold InRange
  by_cases hb : 2 ≤ b.toInt.natAbs
  · have hhalf : (a.toInt.tdiv b.toInt).natAbs ≤ a.toInt.natAbs / 2 := by
      rw [Int.natAbs_tdiv]
      exact Nat.div_le_div_left hb (by omega)
    omega
  · obtain hb | hb | hb : b.toInt = 0 ∨ b.toInt = 1 ∨ b.toInt = -1 := by omega
    · rw [hb, Int.tdiv_zero]
      omega
    · rw [hb, Int.tdiv_one]
      omega
    · rw [hb, Int.tdiv_neg, Int.tdiv_one]
      omega

/-- A remainder is smaller than the divisor. -/
theorem natAbs_tmod_lt (a : Int) {b : Int} (hb : b ≠ 0) : (a.tmod b).natAbs < b.natAbs := by
  rw [Int.natAbs_tmod]
  exact Nat.mod_lt _ (by omega)

theorem inRange_tmod (a : Int) {b : Int64} (hb : b ≠ 0) : InRange (a.tmod b.toInt) := by
  have hlt := natAbs_tmod_lt a (toInt_ne_zero hb)
  obtain ⟨hlow, hhigh⟩ := toInt_inRange b
  unfold InRange
  omega

/-- A remainder is zero or has the sign of the dividend. -/
theorem tmod_eq_zero_or_sign (a b : Int) : a.tmod b = 0 ∨ (a.tmod b).sign = a.sign := by
  rw [Int.sign_tmod]
  by_cases hdvd : b ∣ a
  · exact .inl (Int.tmod_eq_zero_of_dvd hdvd)
  · exact .inr (if_neg hdvd)

theorem div_eq_none_iff {a b : Int64} (hb : b ≠ 0) :
    div a b = none ↔ a = Int64.minValue ∧ b = -1 := by
  rw [div, if_neg hb]
  by_cases hfits : InRange (a.toInt.tdiv b.toInt)
  · obtain ⟨q, hq, -⟩ := ofInt?_of_inRange hfits
    rw [hq]
    exact iff_of_false nofun (inRange_tdiv_iff.mp hfits)
  · exact iff_of_true (ofInt?_of_not_inRange hfits)
      (Classical.not_not.mp fun h => hfits (inRange_tdiv_iff.mpr h))

/-- There is a remainder just where there is a quotient. -/
theorem rem_eq_none_iff {a b : Int64} (hb : b ≠ 0) : rem a b = none ↔ div a b = none := by
  obtain ⟨r, hr, -⟩ := ofInt?_of_inRange (inRange_tmod a.toInt hb)
  rw [rem, hr]
  cases div a b <;> simp

theorem div_rem_eq {a b : Int64} (hb : b ≠ 0) (h : ¬ (a = Int64.minValue ∧ b = -1)) :
    ∃ q r, div a b = some q ∧ rem a b = some r ∧
      q.toInt = a.toInt.tdiv b.toInt ∧ r.toInt = a.toInt.tmod b.toInt := by
  obtain ⟨q, hq, hqdiv⟩ := ofInt?_of_inRange (inRange_tdiv_iff.mpr h)
  obtain ⟨r, hr, hrmod⟩ := ofInt?_of_inRange (inRange_tmod a.toInt hb)
  have hdiv : div a b = some q := by rw [div, if_neg hb, hq]
  exact ⟨q, r, hdiv, by rw [rem, hdiv, hr]; rfl, hqdiv, hrmod⟩

end Checked

open Checked

/-- **The exact result or an overflow**: the integer if it fits 64 bits, and otherwise a fault that
names the operation. -/
def ExactOrOverflow (answer : Except Fault Value) (operation : String) (result : Int) : Prop :=
  (InRange result → ∃ r : Int64, r.toInt = result ∧ answer = .ok (.int r)) ∧
  (¬ InRange result → answer = .error (.ofCause (.integerOverflow operation)))

namespace Operator

theorem exact_exactOrOverflow (operation : String) (result : Int) :
    ExactOrOverflow ((exact operation (ofInt? result)).mapError Fault.ofCause) operation result := by
  refine ⟨fun hfits => ?_, fun hlarge => ?_⟩
  · obtain ⟨r, hr, heq⟩ := ofInt?_of_inRange hfits
    refine ⟨r, heq, ?_⟩
    rw [hr]
    rfl
  · rw [ofInt?_of_not_inRange hlarge]
    rfl

theorem divide_eq_divisionByZero_iff {a b : Int64} :
    divide a b = .error .divisionByZero ↔ b = 0 := by
  unfold divide
  by_cases hb : b = 0
  · simp [hb]
  · cases div a b <;> simp [hb, exact]

theorem modulo_eq_moduloByZero_iff {a b : Int64} :
    modulo a b = .error .moduloByZero ↔ b = 0 := by
  unfold modulo
  by_cases hb : b = 0
  · simp [hb]
  · cases rem a b <;> simp [hb, exact]

theorem divide_eq_overflow_iff {a b : Int64} :
    divide a b = .error (.integerOverflow "division") ↔ a = Int64.minValue ∧ b = -1 := by
  unfold divide
  by_cases hb : b = 0
  · simp [hb]
  · rw [if_neg hb, exact_eq_error_iff, div_eq_none_iff hb]

theorem modulo_eq_overflow_iff {a b : Int64} :
    modulo a b = .error (.integerOverflow "remainder") ↔ a = Int64.minValue ∧ b = -1 := by
  unfold modulo
  by_cases hb : b = 0
  · simp [hb]
  · rw [if_neg hb, exact_eq_error_iff, rem_eq_none_iff hb, div_eq_none_iff hb]

end Operator

/-- **Arithmetic is exact or faults.**  Sums, differences, products, negations and absolute values
are the exact integers, or overflow when these do not fit 64 bits.  A quotient and a remainder fault
about a divisor that is zero, and overflow for the least integer divided by minus one.  For all other
operands both are given.  The quotient times the divisor and the remainder make up the dividend; the
remainder is smaller than the divisor, and it is zero or has the sign of the dividend. -/
theorem arithmetic_exact (cx : Context) (w : World) (a b : Int64) :
    let answer (op : Operator) (args : List Value) := (op.apply cx args w).1
    let fault (cause : Cause) : Except Fault Value := .error (.ofCause cause)
    let quotient := answer .intDiv [.int a, .int b]
    let remainder := answer .intMod [.int a, .int b]
    ExactOrOverflow (answer .intAdd [.int a, .int b]) "addition" (a.toInt + b.toInt) ∧
    ExactOrOverflow (answer .intSub [.int a, .int b]) "subtraction" (a.toInt - b.toInt) ∧
    ExactOrOverflow (answer .intMul [.int a, .int b]) "multiplication" (a.toInt * b.toInt) ∧
    ExactOrOverflow (answer .intNeg [.int a]) "negation" (-a.toInt) ∧
    ExactOrOverflow (answer .intAbs [.int a]) "absolute value" a.toInt.natAbs ∧
    (quotient = fault .divisionByZero ↔ b = 0) ∧
    (remainder = fault .moduloByZero ↔ b = 0) ∧
    (quotient = fault (.integerOverflow "division") ↔ a = Int64.minValue ∧ b = -1) ∧
    (remainder = fault (.integerOverflow "remainder") ↔ a = Int64.minValue ∧ b = -1) ∧
    (b ≠ 0 → ¬ (a = Int64.minValue ∧ b = -1) →
      ∃ q r : Int64, quotient = .ok (.int q) ∧ remainder = .ok (.int r) ∧
        a.toInt = q.toInt * b.toInt + r.toInt ∧ r.toInt.natAbs < b.toInt.natAbs ∧
        (r.toInt = 0 ∨ r.toInt.sign = a.toInt.sign)) := by
  intro answer fault quotient remainder
  have hquotient : quotient = (Operator.divide a b).mapError Fault.ofCause := rfl
  have hremainder : remainder = (Operator.modulo a b).mapError Fault.ofCause := rfl
  refine ⟨Operator.exact_exactOrOverflow _ _, Operator.exact_exactOrOverflow _ _,
    Operator.exact_exactOrOverflow _ _, Operator.exact_exactOrOverflow _ _,
    Operator.exact_exactOrOverflow _ _, ?_, ?_, ?_, ?_, fun hb h => ?_⟩
  · rw [hquotient, Operator.mapError_eq_error_iff, Operator.divide_eq_divisionByZero_iff]
  · rw [hremainder, Operator.mapError_eq_error_iff, Operator.modulo_eq_moduloByZero_iff]
  · rw [hquotient, Operator.mapError_eq_error_iff, Operator.divide_eq_overflow_iff]
  · rw [hremainder, Operator.mapError_eq_error_iff, Operator.modulo_eq_overflow_iff]
  · obtain ⟨q, r, hq, hr, hqdiv, hrmod⟩ := div_rem_eq hb h
    refine ⟨q, r, ?_, ?_, ?_, ?_, ?_⟩
    · rw [hquotient, Operator.mapError_eq_ok_iff, Operator.divide, if_neg hb,
        Operator.exact_eq_ok_iff, hq]
    · rw [hremainder, Operator.mapError_eq_ok_iff, Operator.modulo, if_neg hb,
        Operator.exact_eq_ok_iff, hr]
    · rw [hqdiv, hrmod, Int.tdiv_mul_add_tmod]
    · rw [hrmod]
      exact natAbs_tmod_lt _ (toInt_ne_zero hb)
    · rw [hrmod]
      exact tmod_eq_zero_or_sign _ _

/-- The least integer divided by a negative number other than minus one, with something left over.
Divided by minus one it overflows either way. -/
theorem least_integer_divided :
    let cx : Context := ⟨.initial, .empty, World.invoke⟩
    let w := World.ofInput ByteArray.empty
    let answer (op : Operator) (b : Int64) := (op.apply cx [.int Int64.minValue, .int b] w).1
    (-3 : Int64) ≠ 0 ∧ ¬ (Int64.minValue = Int64.minValue ∧ (-3 : Int64) = -1) ∧
    (∃ q r : Int64, answer .intDiv (-3) = .ok (.int q) ∧ answer .intMod (-3) = .ok (.int r) ∧
      Int64.minValue.toInt = q.toInt * (-3) + r.toInt ∧ r = -2) ∧
    answer .intDiv (-1) = .error (.ofCause (.integerOverflow "division")) ∧
    answer .intMod (-1) = .error (.ofCause (.integerOverflow "remainder")) := by
  intro cx w answer
  have hb : (-3 : Int64) ≠ 0 := by decide
  have h : ¬ (Int64.minValue = Int64.minValue ∧ (-3 : Int64) = -1) := by decide
  obtain ⟨-, -, -, -, -, -, -, -, -, hdivided⟩ := arithmetic_exact cx w Int64.minValue (-3)
  obtain ⟨-, -, -, -, -, -, -, hquotient, hremainder, -⟩ :=
    arithmetic_exact cx w Int64.minValue (-1)
  obtain ⟨q, r, hq, hr, hsum, -⟩ := hdivided hb h
  obtain rfl : (-2 : Int64) = r := by
    have hanswer : answer .intMod (-3) = .ok (.int (-2)) := rfl
    cases hanswer.symm.trans hr
    rfl
  exact ⟨hb, h, ⟨q, _, hq, hr, hsum, rfl⟩, hquotient.mpr ⟨rfl, rfl⟩, hremainder.mpr ⟨rfl, rfl⟩⟩

end CapLang
