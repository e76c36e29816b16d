/-!
# Checked integers

Arithmetic on 64-bit signed integers that gives the exact result or nothing. Each operation works
out the result among all integers and then asks whether it fits.
-/
namespace CapLang.Checked

/-- The integer as 64 bits, if it fits. -/
def ofInt? (n : Int) : Option Int64 :=
  if Int64.minValue.toInt ≤ n ∧ n ≤ Int64.maxValue.toInt then some (Int64.ofInt n) else none

/-- The sum. -/
def add (a b : Int64) : Option Int64 := ofInt? (a.toInt + b.toInt)

/-- The difference. -/
def sub (a b : Int64) : Option Int64 := ofInt? (a.toInt - b.toInt)

/-- The product. -/
def mul (a b : Int64) : Option Int64 := ofInt? (a.toInt * b.toInt)

/-- The quotient, rounded towards zero; nothing for a zero divisor. -/
def div (a b : Int64) : Option Int64 :=
  if b = 0 then none else ofInt? (a.toInt.tdiv b.toInt)

/-- What the quotient leaves over, which has the sign of the dividend. There is none where there is
no quotient. -/
def rem (a b : Int64) : Option Int64 :=
  (div a b).bind fun _ => ofInt? (a.toInt.tmod b.toInt)

/-- The negation. -/
def neg (a : Int64) : Option Int64 := ofInt? (-a.toInt)

/-- The absolute value. -/
def abs (a : Int64) : Option Int64 := ofInt? a.toInt.natAbs

/-- The power. No base other than 0, 1 and -1 has one that fits from the 64th on. -/
def pow (a : Int64) (e : Nat) : Option Int64 :=
  if a.toInt.natAbs ≤ 1 then ofInt? (a.toInt.pow (if e = 0 then 0 else 2 - e % 2))
  else if e < 64 then ofInt? (a.toInt.pow e)
  else none

/-- The ends of the range have powers on one side only. -/
example : pow (-2) 63 = some Int64.minValue ∧ pow 2 63 = none ∧ pow 2 62 ≠ none := by decide
example : pow 0 0 = some 1 ∧ pow (-1) 4294967295 = some (-1) := by decide

/-- The least integer has no negation, so it can be divided by minus one neither way. -/
example : neg Int64.minValue = none ∧ div Int64.minValue (-1) = none ∧
    rem Int64.minValue (-1) = none := by decide
example : div (-7) 2 = some (-3) ∧ rem (-7) 2 = some (-1) := by decide

end CapLang.Checked
