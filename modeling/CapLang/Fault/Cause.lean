/-!
# Causes of faults

What can go wrong while a program runs, each with the words for it and the class that hosts see.
-/
namespace CapLang

/-- A coarse class of causes. -/
inductive FaultClass
  | unboundVariable
  | type
  | arity
  | matching
  | field
  | arithmetic
  | stackOverflow
  | capability
  /-- Raised by a host object for reasons of its own. -/
  | other
deriving DecidableEq

/-- The word for a class. -/
def FaultClass.text : FaultClass → String
  | unboundVariable => "UnboundVariable"
  | type => "TypeFault"
  | arity => "ArityFault"
  | matching => "MatchFault"
  | field => "FieldFault"
  | arithmetic => "ArithmeticFault"
  | stackOverflow => "StackOverflow"
  | capability => "CapabilityFault"
  | other => "Fault"

/-- What went wrong. -/
inductive Cause
  | divisionByZero
  | moduloByZero
  | integerOverflow (operation : String)
  | negativeExponent
  | indexOutOfBounds (index : Int) (length : Nat)
  | typeMismatch (expected got : String)
  | notComparable (typeName : String)
  | notApplicable (typeName : String)
  | unboundVariable (name : String)
  | missingField (field : String)
  /-- Too many or too few arguments. The callee is empty for a function without a name. -/
  | arityMismatch (callee : String) (expected got : Nat)
  /-- One nested call too many. -/
  | stackOverflow (limit : Nat)
  | nonExhaustiveMatch
  | missingCapability (capability : String)
  | unknownMethod (capability method : String)
  | capabilityFailed (capability message : String)
  | other (message : String)
deriving DecidableEq

namespace Cause

/-- How many arguments were wanted and how many came; only one argument is spoken of in the
singular. -/
def arityMessage (callee : String) (expected got : Nat) : String :=
  let noun := if expected = 1 then "argument" else "arguments"
  let verb := if callee = "" then "expected " else callee ++ " expects "
  verb ++ toString expected ++ " " ++ noun ++ ", got " ++ toString got

/-- What went wrong, in words. -/
def message : Cause → String
  | divisionByZero => "division by zero"
  | moduloByZero => "modulo by zero"
  | integerOverflow operation => "integer overflow in " ++ operation
  | negativeExponent => "negative exponent in exponentiation"
  | indexOutOfBounds index length =>
    "index " ++ toString index ++ " out of bounds for length " ++ toString length
  | typeMismatch expected got => "type mismatch: expected " ++ expected ++ ", got " ++ got
  | notComparable typeName => "equality is not defined on " ++ typeName ++ " values"
  | notApplicable typeName => typeName ++ " is not a function"
  | unboundVariable name => "unbound variable: " ++ name
  | missingField field => "record has no field " ++ field
  | arityMismatch callee expected got => arityMessage callee expected got
  | stackOverflow limit => "maximum call depth exceeded (limit: " ++ toString limit ++ ")"
  | nonExhaustiveMatch => "non-exhaustive match"
  | missingCapability capability => "missing capability: " ++ capability
  | unknownMethod capability method => "capability " ++ capability ++ " has no method " ++ method
  | capabilityFailed capability message => capability ++ " failed: " ++ message
  | other message => message

/-- The class of the cause. -/
def faultClass : Cause → FaultClass
  | unboundVariable _ => .unboundVariable
  | typeMismatch .. | notComparable _ | notApplicable _ => .type
  | arityMismatch .. => .arity
  | nonExhaustiveMatch => .matching
  | missingField _ => .field
  | divisionByZero | moduloByZero | integerOverflow _ | negativeExponent | indexOutOfBounds .. =>
    .arithmetic
  | stackOverflow _ => .stackOverflow
  | missingCapability _ | unknownMethod .. | capabilityFailed .. => .capability
  | other _ => .other

end Cause
end CapLang
