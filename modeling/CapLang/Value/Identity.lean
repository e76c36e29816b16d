import CapLang.Environment

/-!
# Equality for hosts

How a host compares two values. Functions are equal if they are one piece of code in one
environment, capabilities if they lead to one object, and all else by contents, whatever the order
of the fields of a record.

Two records are equal if they are one and the same, or if they have equally many fields and each
field of one, the leading record, has an equal field in the other. The lead changes sides with each
level of nesting. It matters only for records that repeat a name.
-/
namespace CapLang

mutual

/-- Whether a host takes two values to be equal. The right value leads if `rightLeads`. -/
def Value.sameLed (rightLeads : Bool) : Value → Value → Bool
  | .int a, .int b => a == b
  | .bool a, .bool b => a == b
  | .str a, .str b => a == b
  | .unit, .unit => true
  | .closure c e, .closure d f => c.same d && e.same f
  | .record s xs, .record t ys =>
    s == t || (xs.length == ys.length &&
      if rightLeads then
        ys.all fun y =>
          match (Value.fieldTests xs).find? (·.1 == y.1) with
          | some test => test.2 y.2
          | none => false
      else Value.sameFields ys xs)
  | .variant t v, .variant u w => t == u && Value.sameLed rightLeads v w
  | .capability h, .capability k => h.same k
  | _, _ => false

/-- Whether each of some fields has an equal one among those of another record. -/
def Value.sameFields (others : List (Name × Value)) : List (Name × Value) → Bool
  | [] => true
  | (x, v) :: rest =>
    (match Value.field? x others with
      | some w => Value.sameLed true v w
      | none => false) && Value.sameFields others rest

/-- The fields of a record as tests, each of which asks whether a value equals that of the field. -/
def Value.fieldTests : List (Name × Value) → List (Name × (Value → Bool))
  | [] => []
  | (x, v) :: rest => (x, Value.sameLed false v) :: Value.fieldTests rest

end

/-- Whether a host takes two values to be equal. -/
def Value.same (v w : Value) : Bool := Value.sameLed false v w

end CapLang
