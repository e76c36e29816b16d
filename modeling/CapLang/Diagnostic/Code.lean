/-!
# Report codes

Every kind of fault has a number, which reports show and users can look up. Numbers are grouped by
tens: 600x arithmetic, 601x types, 602x access, 603x calls, 604x matching, 606x capabilities, and
6099 for all else.
-/
namespace CapLang.Diagnostic

/-- The number of a kind of fault. -/
inductive Code
  | divisionByZero
  | moduloByZero
  | integerOverflow
  | negativeExponent
  | indexOutOfBounds
  | typeMismatch
  | notComparable
  | unboundVariable
  | missingField
  | wrongArgumentCount
  | depthExceeded
  | notApplicable
  | noMatch
  | missingCapability
  | unknownMethod
  | capabilityFailed
  | other
deriving DecidableEq

namespace Code

/-- All codes, in the order of their numbers. -/
def all : List Code :=
  [divisionByZero, moduloByZero, integerOverflow, negativeExponent, indexOutOfBounds, typeMismatch,
   notComparable, unboundVariable, missingField, wrongArgumentCount, depthExceeded, notApplicable,
   noMatch, missingCapability, unknownMethod, capabilityFailed, other]

/-- The number. -/
def number : Code → Nat
  | divisionByZero => 6001
  | moduloByZero => 6002
  | integerOverflow => 6003
  | negativeExponent => 6004
  | indexOutOfBounds => 6005
  | typeMismatch => 6010
  | notComparable => 6011
  | unboundVariable => 6020
  | missingField => 6023
  | wrongArgumentCount => 6030
  | depthExceeded => 6031
  | notApplicable => 6032
  | noMatch => 6040
  | missingCapability => 6060
  | unknownMethod => 6061
  | capabilityFailed => 6062
  | other => 6099

/-- The code as reports write it. -/
def text (c : Code) : String := "E" ++ toString c.number

/-- What the code means, in a few words. -/
def description : Code → String
  | divisionByZero => "division by zero"
  | moduloByZero => "modulo by zero"
  | integerOverflow => "integer overflow"
  | negativeExponent => "negative exponent"
  | indexOutOfBounds => "index out of bounds"
  | typeMismatch => "type mismatch"
  | notComparable => "value not comparable"
  | unboundVariable => "unbound variable"
  | missingField => "missing record field"
  | wrongArgumentCount => "wrong number of arguments"
  | depthExceeded => "call depth limit exceeded"
  | notApplicable => "value is not applicable"
  | noMatch => "no case alternative matched"
  | missingCapability => "capability not registered"
  | unknownMethod => "unknown capability method"
  | capabilityFailed => "capability call failed"
  | other => "runtime error"

/-- The code belongs to arithmetic. -/
def isArithmetic (c : Code) : Bool := c.number / 10 == 600

/-- No code is missing from the list. -/
theorem mem_all (c : Code) : c ∈ all := by
  cases c <;> decide

end Code
end CapLang.Diagnostic
