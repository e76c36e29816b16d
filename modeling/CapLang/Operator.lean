import CapLang.Name

/-!
# Primitive operators

The closed set of operators that programs apply to evaluated operands, with the number of operands
each one takes.
-/
namespace CapLang

/-- How many operands an operator takes. -/
inductive Arity
  | exactly (n : Nat)
  | atLeast (n : Nat)
deriving DecidableEq

namespace Arity

/-- Whether this many operands will do. -/
def accepts : Arity → Nat → Bool
  | exactly n, count => count == n
  | atLeast n, count => n ≤ count

/-- The number of operands to name when there are too few or too many. -/
def expected : Arity → Nat
  | exactly n | atLeast n => n

end Arity

/-- A primitive operator. -/
inductive Operator
  | intAdd | intSub | intMul | intDiv | intMod | intPow | intNeg | intAbs
  | intLt | intLe | intGt | intGe
  | boolAnd | boolOr | boolNot
  | strConcat | strLength | strSubstr
  /-- Structural equality on values without functions and capabilities. -/
  | equal
  /-- Fetches what the host registered under a name. -/
  | capability (name : Name)
  /-- Calls a method of the first operand, a capability, with the other operands. -/
  | invoke (method : Name)
deriving DecidableEq

namespace Operator

/-- The number of operands that the operator takes. -/
def arity : Operator → Arity
  | capability _ => .exactly 0
  | intNeg | intAbs | boolNot | strLength => .exactly 1
  | intAdd | intSub | intMul | intDiv | intMod | intPow | intLt | intLe | intGt | intGe
  | boolAnd | boolOr | strConcat | strSubstr | equal => .exactly 2
  | invoke _ => .atLeast 1

/-- The operator's name in reports. -/
def text : Operator → String
  | intAdd => "IntAdd"
  | intSub => "IntSub"
  | intMul => "IntMul"
  | intDiv => "IntDiv"
  | intMod => "IntMod"
  | intPow => "IntPow"
  | intNeg => "IntNeg"
  | intAbs => "IntAbs"
  | intLt => "IntLt"
  | intLe => "IntLe"
  | intGt => "IntGt"
  | intGe => "IntGe"
  | boolAnd => "BoolAnd"
  | boolOr => "BoolOr"
  | boolNot => "BoolNot"
  | strConcat => "StrConcat"
  | strLength => "StrLength"
  | strSubstr => "StrSubstr"
  | equal => "Equal"
  | capability _ => "Capability"
  | invoke _ => "Invoke"

end Operator
end CapLang
