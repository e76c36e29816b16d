import CapLang.Value.Basic
import CapLang.Fault.Cause

/-!
# Structural equality

How programs compare two values. Records are compared field by field whatever their order; the
fields of the left one are tried in turn and the first that differs decides. Functions and
capabilities cannot be compared, and neither can values of different kinds.
-/
namespace CapLang

mutual

/-- Whether two values are equal, or why they cannot be compared. -/
def Value.equals : Value → Value → Except Cause Bool
  | .closure .., _ => .error (.notComparable "Function")
  | .capability _, _ => .error (.notComparable "Capability")
  | _, .closure .. => .error (.notComparable "Function")
  | _, .capability _ => .error (.notComparable "Capability")
  | .int a, .int b => .ok (a == b)
  | .bool a, .bool b => .ok (a == b)
  | .str a, .str b => .ok (a == b)
  | .unit, .unit => .ok true
  | .record _ xs, .record _ ys =>
    if xs.length = ys.length then Value.equalsFields ys xs else .ok false
  | .variant t v, .variant u w => if t = u then v.equals w else .ok false
  | a, b => .error (.typeMismatch a.typeName b.typeName)

/-- Whether each of some fields has an equal one among those of another record. -/
def Value.equalsFields (others : List (Name × Value)) :
    List (Name × Value) → Except Cause Bool
  | [] => .ok true
  | (x, v) :: rest =>
    match Value.field? x others with
    | none => .ok false
    | some w =>
      match v.equals w with
      | .ok true => Value.equalsFields others rest
      | answer => answer

end
end CapLang
