import CapLang.Call.Stack
import CapLang.Counters
import CapLang.Environment
import CapLang.Operator.Apply

/-!
# Steps of evaluation

The state that evaluation changes, and the steps from which it is put together. A step gives a
result or stops; what it has changed by then stays changed.
-/
namespace CapLang

/-- What evaluation changes. -/
structure Machine where
  stack : CallStack
  /-- Present if evaluation is to be counted. -/
  counters : Option Counters
  world : World

/-- Why there is no result. -/
inductive Stop
  | fault (f : Fault)
  /-- Calls nest deeper than evaluation was told to follow them. -/
  | exhausted

/-- A step of evaluation. -/
abbrev Eval := EStateM Stop Machine

namespace Machine

/-- A machine with no call under way. -/
def start (mode : Mode) (counting : Bool) (w : World) : Machine :=
  ⟨.empty mode.limit?, if counting then some .zero else none, w⟩

/-- Leaves the most recent call. -/
def leave (m : Machine) : Machine := { m with stack := m.stack.pop }

end Machine

namespace Eval

/-- Stops with a fault at a site. -/
def raise (site : Site) (cause : Cause) : Eval α :=
  throw (.fault ((Fault.ofCause cause).withSite site))

/-- Counts something, if evaluation is counted. -/
def count (f : Counters → Counters) : Eval Unit :=
  modify fun m => { m with counters := m.counters.map f }

/-- Takes a new stamp. -/
def stamp : Eval Stamp := fun ⟨stack, counters, world⟩ =>
  let (s, world) := world.stamp
  .ok s ⟨stack, counters, world⟩

/-- Enters a call from a site. -/
def enter (callee : Option Name) (site : Site) : Eval Unit := fun ⟨stack, counters, world⟩ =>
  match stack.push ⟨callee, site.span⟩ with
  | .ok stack => .ok () ⟨stack, counters.map (.application stack.depth), world⟩
  | .error cause => raise site cause ⟨stack, counters, world⟩

/-- Runs the body of a call and leaves the call, whatever comes of it. A fault that has no
backtrace yet gets one, with this call as the most recent. -/
def leaving (names : NameTable) (body : Eval α) : Eval α := fun m =>
  match body m with
  | .ok a m => .ok a m.leave
  | .error (.fault f) m =>
    .error (.fault (if f.backtrace.isSome then f else m.stack.attach names f)) m.leave
  | .error .exhausted m => .error .exhausted m.leave

/-- Applies a primitive operator; the site is that of a fault without one. -/
def operate (cx : Context) (op : Operator) (args : List Value) (site : Site) : Eval Value :=
  fun ⟨stack, counters, world⟩ =>
    match op.apply cx args world with
    | (.ok v, world) => .ok v ⟨stack, counters, world⟩
    | (.error f, world) => .error (.fault (f.withSite site)) ⟨stack, counters, world⟩

/-- Binds names in a new frame. -/
def bind (env : Env) (bindings : List (Name × Value)) : Eval Env := do
  return env.extendMany (← stamp) bindings

/-- The environment in which the body of a function runs, before its parameters are bound. -/
def unfold (code : Code) (env : Env) : Eval Env :=
  match code with
  | .lambda .. => pure env
  | .member .. => do return env.ofCode (← stamp) code

end Eval

/-- How the callee is named when it gets the wrong number of arguments. -/
def Code.callee (names : NameTable) (code : Code) : String :=
  match code.name? with
  | some x => "function `" ++ names.resolve x ++ "`"
  | none => ""

end CapLang
