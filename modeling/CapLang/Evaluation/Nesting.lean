/-!
# Deep nesting

Terms and calls may nest deeper than one thread's stack can follow. Every so many levels the work
moves to a thread of its own and waits for it, which changes where a value is computed and not
which value it is.
-/
namespace CapLang

/-- How many levels of nesting one thread follows. -/
def levelsPerThread : Nat := 4096

/-- The value of `f ()`, computed on a new thread if `level` is a multiple of `levelsPerThread`. -/
@[noinline] def atLevel (level : Nat) (f : Unit → α) : α :=
  if level % levelsPerThread = levelsPerThread - 1 then (Task.spawn f .dedicated).get else f ()

/-- Where a value is computed makes no difference to it. -/
@[simp] theorem atLevel_eq (level : Nat) (f : Unit → α) : atLevel level f = f () := by
  unfold atLevel
  split <;> rfl

end CapLang
