import CapLang.Span

/-!
# Lines and columns

Spans count bytes; people count lines and characters. A line table lists the byte at which each
line of a text starts, and turns a byte offset into a line and a column, both counted from 1.
-/
namespace CapLang

/-- A place in a text as people give it, counted from 1. -/
structure Position where
  line : Nat
  column : Nat
deriving DecidableEq

/-- The byte offsets at which the lines of a text start, in increasing order. -/
structure LineTable where
  starts : List Nat

/-- The text without its first `n` bytes, or nothing if the text is shorter or a character lies
across that point. -/
def dropBytes? (n : Nat) : List Char → Option (List Char)
  | [] => if n = 0 then some [] else none
  | c :: cs => if n = 0 then some (c :: cs) else
    if c.utf8Size ≤ n then dropBytes? (n - c.utf8Size) cs else none

/-- Adds to `count` the number of characters in the first `n` bytes, or gives nothing if the text
is shorter or a character lies across that point. -/
def countChars? (n count : Nat) : List Char → Option Nat
  | [] => if n = 0 then some count else none
  | c :: cs => if n = 0 then some count else
    if c.utf8Size ≤ n then countChars? (n - c.utf8Size) (count + 1) cs else none

namespace LineTable

/-- The starts of the lines after the first one, where `i` is the offset of the given characters. -/
def startsFrom (i : Nat) : List Char → List Nat
  | [] => []
  | c :: cs =>
    let next := i + c.utf8Size
    if c = '\n' then next :: startsFrom next cs else startsFrom next cs

/-- The table of a text: a line starts at 0 and after every line end. -/
def ofText (s : String) : LineTable := ⟨0 :: startsFrom 0 s.toList⟩

/-- The table without lines. -/
def empty : LineTable := ⟨[]⟩

/-- Number of lines. -/
def lineCount (t : LineTable) : Nat := t.starts.length

/-- The line of an offset: the last one that starts at the offset or before it. Offsets after the
text are on its last line; a table without lines puts everything on line 1. -/
def line (t : LineTable) (offset : Nat) : Nat := max 1 (t.starts.countP (· ≤ offset))

/-- The line and column of an offset in a text. The column counts the characters of the line up to
the offset, or up to the end of the text if that comes first. It is 1 if the offset lies within a
character, or if the line starts after the end of the text. -/
def position (t : LineTable) (s : String) (offset : Nat) : Position :=
  let line := t.line offset
  let start := t.starts[line - 1]?.getD 0
  let stop := max (min offset s.utf8ByteSize) start
  let before := (dropBytes? start s.toList).bind (countChars? (stop - start) 0)
  ⟨line, before.getD 0 + 1⟩

/-- The line and column at which a span starts. -/
def spanStart (t : LineTable) (s : String) (span : Span) : Position :=
  t.position s span.start.toNat

/-- A line end belongs to the line that it ends. -/
example : (ofText "é\nx").position "é\nx" 2 = ⟨1, 2⟩ := by decide
example : (ofText "é\nx").position "é\nx" 3 = ⟨2, 1⟩ := by decide

/-- An offset within a character has no column of its own; one after the text is at its end. -/
example : (ofText "aé").position "aé" 2 = ⟨1, 1⟩ := by decide
example : (ofText "aé").position "aé" 9 = ⟨1, 3⟩ := by decide

end LineTable
end CapLang
