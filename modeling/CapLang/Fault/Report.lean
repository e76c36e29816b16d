import CapLang.Fault.Basic
import CapLang.Diagnostic.Basic

/-!
# Faults as diagnostics

The report of a fault: its code, a label on its site, its notes, the calls under way, and a
suggestion where there is an obvious one.
-/
namespace CapLang

namespace Cause

/-- The number of the cause. -/
def code : Cause → Diagnostic.Code
  | divisionByZero => .divisionByZero
  | moduloByZero => .moduloByZero
  | integerOverflow _ => .integerOverflow
  | negativeExponent => .negativeExponent
  | indexOutOfBounds .. => .indexOutOfBounds
  | typeMismatch .. => .typeMismatch
  | notComparable _ => .notComparable
  | unboundVariable _ => .unboundVariable
  | missingField _ => .missingField
  | arityMismatch .. => .wrongArgumentCount
  | stackOverflow _ => .depthExceeded
  | notApplicable _ => .notApplicable
  | nonExhaustiveMatch => .noMatch
  | missingCapability _ => .missingCapability
  | unknownMethod .. => .unknownMethod
  | capabilityFailed .. => .capabilityFailed
  | other _ => .other

/-- The remark on the place of the fault. -/
def label : Cause → String
  | divisionByZero => "division by zero here"
  | moduloByZero => "modulo by zero here"
  | integerOverflow _ => "overflow occurred here"
  | negativeExponent => "negative exponent"
  | indexOutOfBounds .. => "index out of bounds"
  | typeMismatch .. => "type mismatch"
  | notComparable _ => "cannot be compared"
  | unboundVariable _ => "not found in this scope"
  | missingField _ => "field not found"
  | arityMismatch .. => "wrong number of arguments"
  | stackOverflow _ => "call depth limit exceeded"
  | notApplicable _ => "not a function"
  | nonExhaustiveMatch => "no alternative matched"
  | missingCapability _ => "capability not provided"
  | unknownMethod .. => "method not found"
  | capabilityFailed .. => "capability call failed"
  | other _ => "runtime error"

/-- What might help, if that is obvious. -/
def suggestion? : Cause → Option String
  | divisionByZero | moduloByZero => some "add a zero check before dividing"
  | nonExhaustiveMatch => some "add a wildcard `_` alternative to cover remaining cases"
  | stackOverflow _ => some "check the recursion has a reachable base case"
  | missingCapability capability =>
    some ("register a `" ++ capability ++ "` capability with the runtime")
  | _ => none

end Cause

/-- Adds a note to a report: as a related place if it speaks of one. -/
def Note.addTo (n : Note) (d : Diagnostic) : Diagnostic :=
  match n.span with
  | some span => d.withSecondaryLabel span n.message
  | none => d.withNote n.message

namespace Fault

/-- The report of a fault. -/
def toDiagnostic (f : Fault) : Diagnostic :=
  let d := (Diagnostic.error f.cause.code).withMessage f.message
  let d := match f.span with
    | some span => d.withLabel span f.cause.label
    | none => d
  let d := f.notes.foldl (fun d n => n.addTo d) d
  let d := match f.backtrace with
    | some b => if b.frames.isEmpty then d else d.withNote b.text
    | none => d
  match f.cause.suggestion? with
  | some s => d.withSuggestion s
  | none => d

end Fault
end CapLang
