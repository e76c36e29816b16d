/-!
# Counters

What a profiled run counts. Counting is exact; what hosts read of a count has 64 bits and wraps
around.
-/
namespace CapLang

/-- Counts of what happened during evaluation. -/
structure Counters where
  /-- Terms whose evaluation was begun. -/
  terms : Nat
  /-- Calls that were entered. -/
  applications : Nat
  /-- Primitive operators that were applied. -/
  primitives : Nat
  /-- Cases whose scrutinee had a value. -/
  cases : Nat
  /-- The greatest number of nested calls. -/
  maxDepth : Nat
deriving DecidableEq

namespace Counters

/-- Nothing has happened. -/
def zero : Counters := ⟨0, 0, 0, 0, 0⟩

/-- Counts a term. -/
def term (c : Counters) : Counters := { c with terms := c.terms + 1 }

/-- Counts a call, after which so many calls are nested. -/
def application (depth : Nat) (c : Counters) : Counters :=
  { c with applications := c.applications + 1, maxDepth := max c.maxDepth depth }

/-- Counts an application of a primitive operator. -/
def primitive (c : Counters) : Counters := { c with primitives := c.primitives + 1 }

/-- Counts a case. -/
def case (c : Counters) : Counters := { c with cases := c.cases + 1 }

/-- What happened in two runs together. -/
def merge (c d : Counters) : Counters :=
  ⟨c.terms + d.terms, c.applications + d.applications, c.primitives + d.primitives,
    c.cases + d.cases, max c.maxDepth d.maxDepth⟩

/-- The counters as hosts read them. Depth is bounded by memory and not cut. -/
def reading (c : Counters) : Counters :=
  ⟨c.terms % UInt64.size, c.applications % UInt64.size, c.primitives % UInt64.size,
    c.cases % UInt64.size, c.maxDepth⟩

/-- What hosts read, one count on each line after a heading. -/
def report (c : Counters) : String :=
  let r := c.reading
  "Evaluation profile:\n" ++
  "  Terms evaluated:  " ++ toString r.terms ++ "\n" ++
  "  Applications:     " ++ toString r.applications ++ "\n" ++
  "  Primitive calls:  " ++ toString r.primitives ++ "\n" ++
  "  Case dispatches:  " ++ toString r.cases ++ "\n" ++
  "  Max call depth:   " ++ toString r.maxDepth

end Counters
end CapLang
