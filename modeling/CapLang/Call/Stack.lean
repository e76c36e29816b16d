import CapLang.NameTable
import CapLang.Fault.Basic
import CapLang.Mode

/-!
# Call stacks

The calls under way, with the limit on their number. The limit is checked when a call is entered;
a call that is refused leaves the stack as it was.
-/
namespace CapLang

/-- A call under way. -/
structure Call where
  /-- The function, if it has a name. -/
  callee : Option Name
  /-- The term that made the call. -/
  span : Option Span
deriving DecidableEq

/-- The calls under way, the most recent one first. -/
structure CallStack where
  calls : List Call
  /-- Number of calls under way, at hand for the check of the limit. -/
  depth : Nat
  limit? : Option Nat
  depth_eq : depth = calls.length

namespace CallStack

/-- No call is under way. -/
def empty (limit? : Option Nat) : CallStack := ⟨[], 0, limit?, rfl⟩

/-- No call is under way. -/
def isEmpty (s : CallStack) : Bool := s.calls.isEmpty

/-- One more call is under way. -/
def add (s : CallStack) (c : Call) : CallStack :=
  ⟨c :: s.calls, s.depth + 1, s.limit?, by simp [s.depth_eq]⟩

/-- Enters a call, if the limit admits one more. -/
def push (s : CallStack) (c : Call) : Except Cause CallStack :=
  match s.limit? with
  | some limit => if limit ≤ s.depth then .error (.stackOverflow limit) else .ok (s.add c)
  | none => .ok (s.add c)

/-- Leaves the most recent call. -/
def pop (s : CallStack) : CallStack :=
  ⟨s.calls.tail, s.depth - 1, s.limit?, by simp [s.depth_eq]⟩

/-- Leaving a call undoes entering it. -/
@[simp] theorem pop_add (s : CallStack) (c : Call) : (s.add c).pop = s := by
  cases s
  simp [add, pop]

/-- The calls under way by the names of their functions, the most recent one first. -/
def capture (s : CallStack) (names : NameTable) : Backtrace :=
  ⟨s.calls.map fun c => ⟨(c.callee.map names.resolve).getD "<anonymous>", c.span⟩⟩

/-- Sets the backtrace of a fault to the calls under way, if there are any. -/
def attach (s : CallStack) (names : NameTable) (f : Fault) : Fault :=
  if s.isEmpty then f else f.withBacktrace (s.capture names)

/-- How many more calls can be nested: what the limit leaves, or `patience` without a limit. -/
def room (s : CallStack) (patience : Nat) : Nat :=
  match s.limit? with
  | some limit => limit - s.depth
  | none => patience

end CallStack
end CapLang
