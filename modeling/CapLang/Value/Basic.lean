import CapLang.Term.Basic
import CapLang.Capability.Handle

/-!
# Values and environments

What terms evaluate to, and the environments that functions remember. An environment is a chain of
frames, one for each scope that bound something; extending it leaves the old chain as it was.

Frames and records carry a stamp that evaluation gives to each one that it makes. Stamps decide
nothing while a program runs: they only let a host ask whether two functions share their
environment, or whether two records are one and the same.
-/
namespace CapLang

/-- Tells apart frames, or records, that may look alike. -/
structure Stamp where
  id : Nat
deriving DecidableEq

/-- The code of a function value. -/
inductive Code
  /-- A lambda. -/
  | lambda (id : CodeId) (header : Header) (body : Term)
  /-- The function at a position of a recursive group. The group is bound anew around the
  remembered environment at every call, so that no environment has to contain itself. -/
  | member (id : CodeId) (functions : List (GroupHeader × Term)) (index : Nat)

mutual

/-- The result of evaluating a term. -/
inductive Value
  | int (n : Int64)
  | bool (b : Bool)
  | str (s : String)
  /-- The record without fields. -/
  | unit
  /-- A function together with the environment it was made in. -/
  | closure (code : Code) (env : Env)
  /-- At least one field, in the order of the term that made the record. -/
  | record (stamp : Stamp) (fields : List (Name × Value))
  | variant (tag : Name) (payload : Value)
  | capability (handle : Handle)

/-- What the names in scope stand for. -/
inductive Env
  | empty
  /-- The bindings of one scope, in order, around those of the scopes outside it. -/
  | frame (stamp : Stamp) (bindings : List (Name × Value)) (outer : Env)

end

namespace Code

/-- The name, parameters and body that a call needs. A position outside the group stands for a
function without parameters that gives the empty record; `bindGroup` makes no such code. -/
def header : Code → Header
  | lambda _ h _ => h
  | member _ functions i => (functions[i]?.map (·.1.header)).getD ⟨none, []⟩

/-- The body that a call evaluates. -/
def body : Code → Term
  | lambda _ _ b => b
  | member _ functions i => (functions[i]?.map (·.2)).getD .unit

/-- Names of the parameters. -/
def params (c : Code) : List Name := c.header.params

/-- Number of parameters. -/
def arity (c : Code) : Nat := c.params.length

/-- The name shown for the function: the one its group binds, or the lambda's own. -/
def name? : Code → Option Name
  | lambda _ h _ => h.name
  | member _ functions i => functions[i]?.map (·.1.binder)

/-- Both are the same piece of code. -/
def same : Code → Code → Bool
  | lambda n _ _, lambda m _ _ => n == m
  | member n _ i, member m _ j => n == m && i == j
  | _, _ => false

end Code

namespace Value

/-- The record with these fields; without fields it is the empty record. -/
def ofFields (stamp : Stamp) : List (Name × Value) → Value
  | [] => unit
  | f :: fs => record stamp (f :: fs)

/-- The value of a literal. -/
def ofLiteral : Literal → Value
  | .int n => int n
  | .bool b => bool b
  | .str s => str s
  | .unit => unit

/-- The word for the kind of value in reports. -/
def typeName : Value → String
  | int _ => "Int"
  | bool _ => "Boolean"
  | str _ => "String"
  | unit => "Unit"
  | closure .. => "Function"
  | record .. => "Record"
  | variant .. => "Variant"
  | capability _ => "Capability"

/-- The integer, if the value is one. -/
def asInt? : Value → Option Int64
  | int n => some n
  | _ => none

/-- The truth value, if the value is one. -/
def asBool? : Value → Option Bool
  | bool b => some b
  | _ => none

/-- The text, if the value is one. -/
def asStr? : Value → Option String
  | str s => some s
  | _ => none

/-- The value is no function and no capability. What it contains does not count. -/
def isFirstOrder : Value → Bool
  | closure .. | capability _ => false
  | _ => true

/-- The first field with this name. -/
def field? (x : Name) (fields : List (Name × Value)) : Option Value :=
  (fields.find? (·.1 == x)).map (·.2)

end Value
end CapLang
