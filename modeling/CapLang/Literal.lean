import CapLang.Text.Quoted

/-!
# Literals

Constants that terms and patterns spell out.
-/
namespace CapLang

/-- A constant. Integers have 64 bits and a sign. -/
inductive Literal
  | int (n : Int64)
  | bool (b : Bool)
  | str (s : String)
  /-- The record without fields. -/
  | unit
deriving DecidableEq

/-- Decimal digits, after a minus sign if the integer is negative. -/
def integerText (n : Int64) : String := toString n.toInt

/-- The word for a truth value. -/
def boolText : Bool → String
  | true => "true"
  | false => "false"

namespace Literal

/-- Name of the kind of value that the literal stands for. -/
def typeName : Literal → String
  | int _ => "Int"
  | bool _ => "Boolean"
  | str _ => "String"
  | unit => "Unit"

/-- The literal as it is written in programs. -/
def text : Literal → String
  | int n => integerText n
  | bool b => boolText b
  | str s => quoted s
  | unit => "\x7b\x7d"

end Literal
end CapLang
