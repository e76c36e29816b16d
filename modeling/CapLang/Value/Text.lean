import CapLang.NameTable
import CapLang.Environment

/-!
# Values as text

`Value.text` writes a value in the syntax of programs; `Value.debug` shows how it is built, with
raw names. Both add to a text that is already there, so that long values cost no copying.
-/
namespace CapLang

mutual

/-- A value after the text `out`. -/
def Value.textAfter (names : NameTable) (out : String) : Value → String
  | .int n => out ++ integerText n
  | .bool b => out ++ boolText b
  | .str s => out ++ quoted s
  | .unit => out ++ "\x7b\x7d"
  | .closure .. => out ++ "<function>"
  | .record _ fields => Value.fieldsAfter names (out ++ "\x7b") " " fields ++ " \x7d"
  | .variant tag v =>
    Value.textAfter names (out ++ "<" ++ names.resolve tag ++ " = ") v ++ ">"
  | .capability h => out ++ "<capability " ++ names.resolve h.name ++ ">"

/-- Fields after the text `out`; `separator` stands before the first of them. -/
def Value.fieldsAfter (names : NameTable) (out separator : String) :
    List (Name × Value) → String
  | [] => out
  | (x, v) :: rest =>
    Value.fieldsAfter names (v.textAfter names (out ++ separator ++ names.resolve x ++ " = "))
      ", " rest

end

/-- A value in the syntax of programs. -/
def Value.text (names : NameTable) (v : Value) : String := v.textAfter names ""

/-- Items in square brackets. -/
def bracketed (items : List String) : String := "[" ++ String.intercalate ", " items ++ "]"

/-- The names of each frame, the innermost frame first. -/
def Env.debug (env : Env) : String :=
  bracketed (env.names.map fun frame => bracketed (frame.map Name.debug))

/-- A function by its name, the number of its parameters and the depth of its environment. -/
def Code.debugIn (env : Env) (code : Code) : String :=
  let name := match code.name? with
    | some x => "Some(" ++ x.debug ++ ")"
    | none => "None"
  "ClosureValue \x7b name: " ++ name ++ ", arity: " ++ toString code.arity ++
    ", env_depth: " ++ toString env.depth ++ " \x7d"

mutual

/-- How a value is built, after the text `out`. -/
def Value.debugAfter (out : String) : Value → String
  | .int n => out ++ "Int(" ++ integerText n ++ ")"
  | .bool b => out ++ "Bool(" ++ boolText b ++ ")"
  | .str s => out ++ "Str(" ++ quoted s ++ ")"
  | .unit => out ++ "Unit"
  | .closure code env => out ++ code.debugIn env
  | .record _ fields => Value.debugFieldsAfter (out ++ "Record(\x7b") "" fields ++ "\x7d)"
  | .variant tag v =>
    Value.debugAfter (out ++ "Variant(<" ++ tag.debug ++ " = ") v ++ ">)"
  | .capability h => out ++ h.debug

/-- How fields are built, after the text `out`; `separator` stands before the first of them. -/
def Value.debugFieldsAfter (out separator : String) : List (Name × Value) → String
  | [] => out
  | (x, v) :: rest =>
    Value.debugFieldsAfter (v.debugAfter (out ++ separator ++ x.debug ++ ": ")) ", " rest

end

/-- How a value is built, with raw names. -/
def Value.debug (v : Value) : String := v.debugAfter ""

end CapLang
