/-!
# Names

A name stands for an identifier: a variable, a field, a tag, a capability or a method. It is a
position in a table of texts, so comparing names never looks at their spelling.
-/
namespace CapLang

/-- An identifier, given by its position in a name table. -/
structure Name where
  /-- Position in the table, counted from 0. -/
  index : Nat
deriving DecidableEq

namespace Name

/-- The name at position 0; every table spells it as the empty text. -/
def empty : Name := ⟨0⟩

/-- A name shown by its position, whatever table it comes from. -/
def debug (x : Name) : String := "Name(" ++ toString x.index ++ ")"

end Name
end CapLang
