/-!
# Spans

A half-open range of byte offsets into the text a program was read from. Evaluation never reads
that text; spans travel with faults so that a report can point at a place.
-/
namespace CapLang

/-- Byte range `start..stop`. Nothing forces `start` to come first. -/
structure Span where
  start : UInt32
  stop : UInt32
deriving DecidableEq

/-- Which end of a range does not fit in 32 bits. -/
inductive RangeError
  | startTooLarge (offset : Nat)
  | stopTooLarge (offset : Nat)
deriving DecidableEq

/-- What is said of a range that is refused. -/
def RangeError.message : RangeError → String
  | startTooLarge n => "span start " ++ toString n ++ " exceeds u32::MAX"
  | stopTooLarge n => "span end " ++ toString n ++ " exceeds u32::MAX"

namespace Span

/-- Stands in for the place of a term that was read from no text. -/
def dummy : Span := ⟨0, 0⟩

/-- The span of a range of any size. The start is looked at first. -/
def ofRange? (start stop : Nat) : Except RangeError Span :=
  if UInt32.size ≤ start then .error (.startTooLarge start)
  else if UInt32.size ≤ stop then .error (.stopTooLarge stop)
  else .ok ⟨UInt32.ofNat start, UInt32.ofNat stop⟩

/-- Number of bytes covered; 0 when the ends are the wrong way round. -/
def length (s : Span) : Nat := s.stop.toNat - s.start.toNat

/-- Covers no byte. -/
def isEmpty (s : Span) : Bool := s.stop ≤ s.start

/-- The other span lies within this one. -/
def contains (s other : Span) : Bool := s.start ≤ other.start && other.stop ≤ s.stop

/-- The smallest span that covers both. -/
def merge (s other : Span) : Span := ⟨min s.start other.start, max s.stop other.stop⟩

/-- The two ends as numbers. -/
def range (s : Span) : Nat × Nat := (s.start.toNat, s.stop.toNat)

/-- Two offsets with two points between them. -/
def text (s : Span) : String := toString s.start.toNat ++ ".." ++ toString s.stop.toNat

end Span
end CapLang
