import CapLang.Evaluation.Basic
import CapLang.Term.FreeVariables

/-!
# Running programs

A runner evaluates whole programs. Each run starts without bindings and with no call under way; all
that runs share is the world.
-/
namespace CapLang

/-- What a run comes to: a value, or why there is none. -/
abbrev Outcome := Except Stop Value

/-- What a host settles once for all its programs. -/
structure Runner where
  context : Context
  mode : Mode

namespace Runner

/-- Evaluates a program, and counts if `counting`. -/
def start (r : Runner) (counting : Bool) (patience : Nat) (t : Term) (w : World) :
    Outcome × Machine :=
  match r.context.eval patience .empty t (.start r.mode counting w) with
  | .ok v m => (.ok v, m)
  | .error stop m => (.error stop, m)

/-- Evaluates a program. -/
def run (r : Runner) (patience : Nat) (t : Term) (w : World) : Outcome × World :=
  let (outcome, m) := r.start false patience t w
  (outcome, m.world)

/-- Evaluates a program and tells what was counted. -/
def runProfiled (r : Runner) (patience : Nat) (t : Term) (w : World) :
    Outcome × Counters × World :=
  let (outcome, m) := r.start true patience t w
  (outcome, m.counters.getD .zero, m.world)

/-- Evaluates programs one after the other. A fault in one does not keep the others from running. -/
def runAll (r : Runner) (patience : Nat) : List Term → World → List Outcome × World
  | [], w => ([], w)
  | t :: ts, w =>
    let (outcome, w) := r.run patience t w
    let (outcomes, w) := r.runAll patience ts w
    (outcome :: outcomes, w)

/-- The fault of a program with free variables: the first of them is its cause and its site, and
each other one gets a note. -/
def unboundFault (names : NameTable) (first : FreeVariable) (others : List FreeVariable) : Fault :=
  let fault := (Fault.ofCause (.unboundVariable (names.resolve first.name))).withSite
    (.ofTerm (.var first.span first.name))
  others.foldl (fun f x =>
    f.withNote ⟨"`" ++ names.resolve x.name ++ "` is also unbound", x.span⟩) fault

/-- Evaluates a program unless it has free variables, in which case nothing is evaluated. -/
def checkAndRun (r : Runner) (patience : Nat) (t : Term) (w : World) : Outcome × World :=
  match t.freeVariables with
  | first :: others => (.error (.fault (unboundFault r.context.names first others)), w)
  | [] => r.run patience t w

end Runner

/-! ### A program without end

A function that applies its argument to itself, applied to itself: it calls itself until the limit
refuses one call more, and the fault lists the calls under way. -/

namespace SelfApplication

/-- A function that applies its argument to itself. -/
def twice : Term :=
  .lambda none ⟨0⟩ ⟨none, [⟨1⟩]⟩ (.app (some ⟨4, 8⟩) (.var none ⟨1⟩) [.var none ⟨1⟩])

/-- The program, run with at most two nested calls. -/
def outcome : Outcome :=
  let runner : Runner := ⟨⟨.initial, .empty, World.invoke⟩, .bounded 2⟩
  (runner.run 0 (.app none twice [twice]) (.ofInput ByteArray.empty)).1

example : outcome = .error (.fault
    { cause := .stackOverflow 2
      message := "maximum call depth exceeded (limit: 2)"
      site := some ⟨some ⟨4, 8⟩, "Application"⟩
      backtrace := some ⟨[⟨"<anonymous>", some ⟨4, 8⟩⟩, ⟨"<anonymous>", none⟩]⟩
      notes := [] }) := by rfl

end SelfApplication
end CapLang
