import CapLang.Evaluation.Machine
import CapLang.Evaluation.Nesting
import CapLang.Matching
import CapLang.Value.Text

/-!
# Evaluation

The value of a term in an environment. Evaluation follows the term; the only step that leaves it is
a call, which goes on in the body of a function. So it is given in two parts: `Term.evalWith`
recurses over a term and is told how to make a call, and `Context.callWithin` makes calls nested up
to a given depth. A call that nests deeper stops with `exhausted`, which is no fault: a limit on
calls that is at most the given depth always faults first.
-/
namespace CapLang

/-- Makes a call: the level of nesting, the function, the arguments and the calling term. -/
abbrev CallRule := Nat → Code → Env → List Value → Site → Eval Value

/-- A step at a level of nesting. -/
@[inline] def Eval.nested (level : Nat) (step : Eval α) : Eval α :=
  fun m => atLevel level fun _ => step m

@[simp] theorem Eval.nested_eq (level : Nat) (step : Eval α) : Eval.nested level step = step := by
  funext m
  simp [Eval.nested]

mutual

/-- The value of a term, where `call` makes calls. -/
def Term.evalWith (cx : Context) (call : CallRule) (level : Nat) (env : Env) :
    Term → Eval Value
  | .literal _ l => do
    Eval.count .term
    pure (.ofLiteral l)
  | .var span x => do
    Eval.count .term
    match env.lookup x with
    | some v => pure v
    | none => Eval.raise (.ofTerm (.var span x)) (.unboundVariable (cx.names.resolve x))
  | .lambda _ id header body => do
    Eval.count .term
    pure (.closure (.lambda id header body) env)
  | .app span func args => Eval.nested level do
    Eval.count .term
    let site := Site.ofTerm (.app span func args)
    match ← func.evalWith cx call (level + 1) env with
    | .closure code closed =>
      let values ← Term.evalAll cx call (level + 1) env args
      call (level + 1) code closed values site
    | v => Eval.raise site (.notApplicable v.typeName)
  | .letIn _ x value body => Eval.nested level do
    Eval.count .term
    let v ← value.evalWith cx call (level + 1) env
    let inner ← Eval.bind env [(x, v)]
    body.evalWith cx call (level + 1) inner
  | .letRec _ id functions body => Eval.nested level do
    Eval.count .term
    let inner := env.bindGroup (← Eval.stamp) id functions
    body.evalWith cx call (level + 1) inner
  | .ifThenElse span cond thenBranch elseBranch => Eval.nested level do
    Eval.count .term
    match ← cond.evalWith cx call (level + 1) env with
    | .bool true => thenBranch.evalWith cx call (level + 1) env
    | .bool false => elseBranch.evalWith cx call (level + 1) env
    | v =>
      let site := Site.ofTerm (.ifThenElse span cond thenBranch elseBranch)
      Eval.raise site (.typeMismatch "Boolean" v.typeName)
  | .caseOf span scrutinee alternatives => Eval.nested level do
    Eval.count .term
    let v ← scrutinee.evalWith cx call (level + 1) env
    Eval.count .case
    let site := Site.ofTerm (.caseOf span scrutinee alternatives)
    Term.evalFirst cx call (level + 1) env site v alternatives
  | .record _ fields => Eval.nested level do
    Eval.count .term
    let values ← Term.evalFields cx call (level + 1) env fields
    return .ofFields (← Eval.stamp) values
  | .field span base x => Eval.nested level do
    Eval.count .term
    let site := Site.ofTerm (.field span base x)
    match ← base.evalWith cx call (level + 1) env with
    | .record _ fields =>
      match Value.field? x fields with
      | some v => pure v
      | none => Eval.raise site (.missingField (cx.names.resolve x))
    | .unit => Eval.raise site (.missingField (cx.names.resolve x))
    | v => Eval.raise site (.typeMismatch "Record" v.typeName)
  | .variant _ tag payload => Eval.nested level do
    Eval.count .term
    return .variant tag (← payload.evalWith cx call (level + 1) env)
  | .prim span op args => Eval.nested level do
    Eval.count .term
    let values ← Term.evalAll cx call (level + 1) env args
    Eval.count .primitive
    Eval.operate cx op values (.ofTerm (.prim span op args))

/-- The values of terms, from left to right. -/
def Term.evalAll (cx : Context) (call : CallRule) (level : Nat) (env : Env) :
    List Term → Eval (List Value)
  | [] => pure []
  | t :: ts => do
    let v ← t.evalWith cx call level env
    let vs ← Term.evalAll cx call level env ts
    return v :: vs

/-- The values of fields, from left to right. -/
def Term.evalFields (cx : Context) (call : CallRule) (level : Nat) (env : Env) :
    List (Name × Term) → Eval (List (Name × Value))
  | [] => pure []
  | (x, t) :: rest => do
    let v ← t.evalWith cx call level env
    let vs ← Term.evalFields cx call level env rest
    return (x, v) :: vs

/-- The value of the first alternative that the scrutinee `v` fits. -/
def Term.evalFirst (cx : Context) (call : CallRule) (level : Nat) (env : Env) (site : Site)
    (v : Value) : List (Pattern × Term) → Eval Value
  | [] =>
    throw (.fault (((Fault.ofCause .nonExhaustiveMatch).withSite site).withNote
      ⟨"scrutinee was " ++ v.text cx.names, none⟩))
  | (p, body) :: rest =>
    match p.match? v with
    | some bindings => do
      let inner ← Eval.bind env bindings
      body.evalWith cx call level inner
    | none => Term.evalFirst cx call level env site v rest

end

namespace Context

/-- Calls a function, where `run` gives the value of its body. The number of arguments is checked
first, then the limit on nested calls; neither failure counts as a call. -/
def callWith (cx : Context) (run : Env → Term → Eval Value) (code : Code) (env : Env)
    (args : List Value) (site : Site) : Eval Value := do
  if code.arity = args.length then
    Eval.enter code.name? site
    Eval.leaving cx.names do
      let outer ← Eval.unfold code env
      let inner ← Eval.bind outer (code.params.zip args)
      run inner code.body
  else
    Eval.raise site (.arityMismatch (code.callee cx.names) code.arity args.length)

/-- Makes calls, up to `room` of them nested in one another. -/
def callWithin (cx : Context) : Nat → CallRule
  | 0 => fun _ => cx.callWith fun _ _ => throw .exhausted
  | room + 1 => fun level =>
    cx.callWith fun env body => body.evalWith cx (cx.callWithin room) (level + 1) env

/-- The value of a term. Where no limit is set, `patience` bounds how deep calls may nest. -/
def eval (cx : Context) (patience : Nat) (env : Env) (t : Term) : Eval Value := fun m =>
  t.evalWith cx (cx.callWithin (m.stack.room patience)) 0 env m

/-- Calls a function with values from a site, as `eval` does for an application. -/
def apply (cx : Context) (patience : Nat) (code : Code) (env : Env) (args : List Value)
    (site : Site) : Eval Value := fun m =>
  cx.callWithin (m.stack.room patience) 0 code env args site m

end Context
end CapLang
