import CapLang.Name

/-!
# Name tables

A table lists the texts met so far, without repetition, and a name is a position in the list.
Here a text is found by a search through the list, which says which name it has; a table that
callers share keeps an index as well (`SharedTable`), and gives the same names.  To add a text is a
step of its own: `find?` reads the table, `insert` looks again and appends.
-/
namespace CapLang

/-- The texts that have a name, in the order in which they got it. -/
structure NameTable where
  texts : Array String

/-- No position is left; `count` texts are in the table. -/
structure TableFull where
  count : Nat
deriving DecidableEq

/-- What is said of a table that has no position left. -/
def TableFull.message (full : TableFull) : String :=
  "interner exceeded capacity: " ++ toString full.count ++ " strings"

namespace NameTable

/-- Positions are below this bound. -/
def capacity : Nat := Nat.pow 2 32

/-- The table that holds the empty text and nothing else. -/
def initial : NameTable := ⟨#[""]⟩

/-- The name of a text that is in the table. -/
def find? (table : NameTable) (s : String) : Option Name :=
  (table.texts.idxOf? s).map Name.mk

/-- The name of a text, which is appended if the table lacks it. The table is left as it was when
no position is free. -/
def insert (table : NameTable) (s : String) : Except TableFull (Name × NameTable) :=
  match table.find? s with
  | some x => .ok (x, table)
  | none =>
    if table.texts.size < capacity then
      .ok (⟨table.texts.size⟩, ⟨table.texts.push s⟩)
    else
      .error ⟨table.texts.size⟩

/-- Looks a text up and adds it if need be. -/
def intern? (table : NameTable) (s : String) : Except TableFull (Name × NameTable) :=
  match table.find? s with
  | some x => .ok (x, table)
  | none => table.insert s

/-- The text of a name, or a fixed text for a name of another table. -/
def resolve (table : NameTable) (x : Name) : String :=
  table.texts[x.index]?.getD "<unknown>"

/-- Number of texts, the empty one included. -/
def size (table : NameTable) : Nat := table.texts.size

/-- Whether nothing is in the table; a table that starts as `initial` never is. -/
def isEmpty (table : NameTable) : Bool := table.texts.isEmpty

end NameTable
end CapLang
