import CapLang.Integer
import CapLang.Operator
import CapLang.Value.Comparison
import CapLang.Context

/-!
# Applying operators

What each primitive operator makes of its operands. Operands are looked at from left to right: the
first of the wrong kind is the one that the fault speaks of.
-/
namespace CapLang

namespace Value

/-- The integer, or why it is none. -/
def expectInt : Value → Except Cause Int64
  | int n => .ok n
  | v => .error (.typeMismatch "Int" v.typeName)

/-- The truth value, or why it is none. -/
def expectBool : Value → Except Cause Bool
  | bool b => .ok b
  | v => .error (.typeMismatch "Boolean" v.typeName)

/-- The text, or why it is none. -/
def expectStr : Value → Except Cause String
  | str s => .ok s
  | v => .error (.typeMismatch "String" v.typeName)

end Value

namespace Operator

/-- The cause of a fault when there are too many operands or too few. -/
def wrongCount (op : Operator) (count : Nat) : Cause :=
  .arityMismatch ("primitive " ++ op.text) op.arity.expected count

/-- Applies a function to one operand. -/
def unary (op : Operator) (operand : Value → Except Cause α) (f : α → Except Cause Value) :
    List Value → Except Cause Value
  | [a] => do f (← operand a)
  | args => .error (op.wrongCount args.length)

/-- Applies a function to two operands. -/
def binary (op : Operator) (left : Value → Except Cause α) (right : Value → Except Cause β)
    (f : α → β → Except Cause Value) : List Value → Except Cause Value
  | [a, b] => do
    let x ← left a
    let y ← right b
    f x y
  | args => .error (op.wrongCount args.length)

/-- Applies a function to two integers. -/
def ints (op : Operator) (f : Int64 → Int64 → Except Cause Value) :
    List Value → Except Cause Value :=
  op.binary Value.expectInt Value.expectInt f

/-- Applies a function to two truth values. -/
def bools (op : Operator) (f : Bool → Bool → Bool) : List Value → Except Cause Value :=
  op.binary Value.expectBool Value.expectBool fun a b => .ok (.bool (f a b))

/-- An exact integer, or the overflow of an operation. -/
def exact (operation : String) : Option Int64 → Except Cause Value
  | some n => .ok (.int n)
  | none => .error (.integerOverflow operation)

/-- The quotient of two integers. -/
def divide (a b : Int64) : Except Cause Value :=
  if b = 0 then .error .divisionByZero else exact "division" (Checked.div a b)

/-- The remainder of two integers. -/
def modulo (a b : Int64) : Except Cause Value :=
  if b = 0 then .error .moduloByZero else exact "remainder" (Checked.rem a b)

/-- The power of two integers. An exponent of more than 32 bits is an overflow for any base. -/
def power (a e : Int64) : Except Cause Value :=
  if e < 0 then .error .negativeExponent
  else if e.toInt < UInt32.size then exact "exponentiation" (Checked.pow a e.toInt.toNat)
  else .error (.integerOverflow "exponentiation")

/-- The text from the character at a position on. The position may be at the end of the text. -/
def suffix (s : String) (i : Int64) : Except Cause Value :=
  if 0 ≤ i.toInt ∧ i.toInt ≤ s.length then
    .ok (.str (String.ofList (s.toList.drop i.toInt.toNat)))
  else .error (.indexOutOfBounds i.toInt s.length)

/-- The value of an operator that depends on its operands alone. -/
def compute (op : Operator) : List Value → Except Cause Value :=
  match op with
  | intAdd => op.ints fun a b => exact "addition" (Checked.add a b)
  | intSub => op.ints fun a b => exact "subtraction" (Checked.sub a b)
  | intMul => op.ints fun a b => exact "multiplication" (Checked.mul a b)
  | intDiv => op.ints divide
  | intMod => op.ints modulo
  | intPow => op.ints power
  | intNeg => op.unary Value.expectInt fun a => exact "negation" (Checked.neg a)
  | intAbs => op.unary Value.expectInt fun a => exact "absolute value" (Checked.abs a)
  | intLt => op.ints fun a b => .ok (.bool (a < b))
  | intLe => op.ints fun a b => .ok (.bool (a ≤ b))
  | intGt => op.ints fun a b => .ok (.bool (b < a))
  | intGe => op.ints fun a b => .ok (.bool (b ≤ a))
  | boolAnd => op.bools and
  | boolOr => op.bools or
  | boolNot => op.unary Value.expectBool fun a => .ok (.bool (!a))
  | strConcat => op.binary Value.expectStr Value.expectStr fun s t => .ok (.str (s ++ t))
  | strLength => op.unary Value.expectStr fun s => exact "string length" (Checked.ofInt? s.length)
  | strSubstr => op.binary Value.expectStr Value.expectInt suffix
  | equal => op.binary .ok .ok fun v w => Value.bool <$> v.equals w
  | capability _ | invoke _ => fun args => .error (op.wrongCount args.length)

/-- Applies an operator to evaluated operands. Only a call of a host object changes the world. -/
def apply (cx : Context) (op : Operator) (args : List Value) (w : World) :
    Except Fault Value × World :=
  match op, args with
  | capability x, [] =>
    match cx.registry.find? x with
    | some h => (.ok (.capability h), w)
    | none => (.error (.ofCause (.missingCapability (cx.names.resolve x))), w)
  | invoke method, .capability h :: rest => cx.invoke w h (cx.names.resolve method) rest
  | invoke _, v :: _ => (.error (.ofCause (.typeMismatch "Capability" v.typeName)), w)
  | op, args => ((op.compute args).mapError Fault.ofCause, w)

end Operator
end CapLang
