import CapLang.NameTable

/-!
# Shared name tables

A table that callers share has its texts twice: by position, which is a name table, and in an index
that gives the position of a text without a search. Callers look a text up under a lock that they
share, and add one under a lock that they hold alone. Between the two steps of one caller any number
of others may have added texts, so the second step looks again.
-/
namespace CapLang

/-- A name table and an index of its texts. -/
structure SharedTable where
  /-- The position of each text, the last text added first. -/
  positions : List (String × Nat)
  names : NameTable

namespace SharedTable

/-- The table that holds the empty text and nothing else. -/
def initial : SharedTable := ⟨[("", 0)], .initial⟩

/-- The name of a text that is in the table. -/
def find? (table : SharedTable) (s : String) : Option Name :=
  (table.positions.lookup s).map Name.mk

/-- The name of a text, which is added to both parts if the table lacks it. The table is left as it
was when no position is free. -/
def insert (table : SharedTable) (s : String) : Except TableFull (Name × SharedTable) :=
  match table.find? s with
  | some x => .ok (x, table)
  | none =>
    let size := table.names.size
    if size < NameTable.capacity then
      .ok (⟨size⟩, ⟨(s, size) :: table.positions, ⟨table.names.texts.push s⟩⟩)
    else
      .error ⟨size⟩

/-- Looks a text up and adds it if need be, with no other caller in between. -/
def intern? (table : SharedTable) (s : String) : Except TableFull (Name × SharedTable) :=
  match table.find? s with
  | some x => .ok (x, table)
  | none => table.insert s

end SharedTable
end CapLang
