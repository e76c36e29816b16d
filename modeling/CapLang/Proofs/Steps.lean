import CapLang.Evaluation.Basic

/-!
# What steps do to the machine

Evaluation is put together from a few steps with `>>=`.  For each step this module says once what
it comes to on a given machine, and for `>>=` how a result or a stop comes about, so that later
proofs never unfold a step.  A call is the one step with cases of its own: it is refused for the
number of its arguments, refused for its depth, or entered (`callWith_wrongCount`,
`callWith_full`, `callWith_entered`).
-/
namespace CapLang

namespace Machine

/-- The machine once something has been counted. -/
def counted (m : Machine) (f : Counters → Counters) : Machine :=
  { m with counters := m.counters.map f }

/-- The machine once a stamp has been taken. -/
def stamped (m : Machine) : Machine := { m with world := m.world.stamp.2 }

/-- The machine once a call has been entered. -/
def entered (m : Machine) (c : Call) : Machine :=
  { m with stack := m.stack.add c, counters := m.counters.map (.application (m.stack.depth + 1)) }

/-- The limit admits one more call. -/
def Admits (m : Machine) : Prop := ∀ limit, m.stack.limit? = some limit → m.stack.depth < limit

@[simp] theorem counted_stack (m : Machine) (f : Counters → Counters) :
    (m.counted f).stack = m.stack := rfl

@[simp] theorem counted_world (m : Machine) (f : Counters → Counters) :
    (m.counted f).world = m.world := rfl

@[simp] theorem stamped_stack (m : Machine) : m.stamped.stack = m.stack := rfl

@[simp] theorem stamped_world (m : Machine) : m.stamped.world = m.world.stamp.2 := rfl

@[simp] theorem stamped_counters (m : Machine) : m.stamped.counters = m.counters := rfl

@[simp] theorem entered_stack (m : Machine) (c : Call) :
    (m.entered c).stack = m.stack.add c := rfl

@[simp] theorem entered_world (m : Machine) (c : Call) : (m.entered c).world = m.world := rfl

@[simp] theorem leave_world (m : Machine) : m.leave.world = m.world := rfl

@[simp] theorem leave_counters (m : Machine) : m.leave.counters = m.counters := rfl

@[simp] theorem leave_stack (m : Machine) : m.leave.stack = m.stack.pop := rfl

/-- Either one more call is admitted, or as many as the limit allows are under way. -/
theorem admits_or_full (m : Machine) :
    m.Admits ∨ ∃ limit, m.stack.limit? = some limit ∧ limit ≤ m.stack.depth := by
  cases h : m.stack.limit? with
  | none => exact .inl fun limit hl => by rw [h] at hl; cases hl
  | some limit =>
    rcases Nat.lt_or_ge m.stack.depth limit with hlt | hge
    · refine .inl fun l hl => ?_
      rw [h] at hl
      cases hl
      exact hlt
    · exact .inr ⟨limit, rfl, hge⟩

end Machine

/-- A stop as it leaves a call, with that call as the most recent one of the stack. -/
def Stop.leaving (names : NameTable) (s : CallStack) : Stop → Stop
  | .fault f => .fault (if f.backtrace.isSome then f else s.attach names f)
  | .exhausted => .exhausted

/-- A fault leaves a call as a fault with the same cause. -/
theorem Stop.leaving_fault (names : NameTable) (s : CallStack) (f : Fault) :
    ∃ g, (Stop.fault f).leaving names s = .fault g ∧ g.cause = f.cause := by
  refine ⟨_, rfl, ?_⟩
  unfold CallStack.attach
  split
  · rfl
  · split <;> rfl

namespace Eval

variable {α β : Type}

/-- The machine that a step leaves, whatever it came to. -/
def after (x : Eval α) (m : Machine) : Machine :=
  match x m with
  | .ok _ m' => m'
  | .error _ m' => m'

theorem after_of_ok {x : Eval α} {m m' : Machine} {a : α} (h : x m = .ok a m') :
    x.after m = m' := by
  simp only [after, h]

theorem after_of_error {x : Eval α} {m m' : Machine} {e : Stop} (h : x m = .error e m') :
    x.after m = m' := by
  simp only [after, h]

theorem after_congr {x y : Eval α} {m m' : Machine} (h : x m = y m') :
    x.after m = y.after m' := by
  simp only [after, h]

/-! ## Sequences -/

theorem bind_of_ok {x : Eval α} {f : α → Eval β} {m m₁ : Machine} {a : α}
    (h : x m = .ok a m₁) : (x >>= f) m = f a m₁ := by
  show EStateM.bind x f m = f a m₁
  simp only [EStateM.bind, h]

theorem bind_of_error {x : Eval α} {f : α → Eval β} {m m₁ : Machine} {e : Stop}
    (h : x m = .error e m₁) : (x >>= f) m = .error e m₁ := by
  show EStateM.bind x f m = .error e m₁
  simp only [EStateM.bind, h]

/-- A sequence gives a result only through a result of its first part. -/
theorem bind_eq_ok {x : Eval α} {f : α → Eval β} {m m' : Machine} {b : β}
    (h : (x >>= f) m = .ok b m') : ∃ a m₁, x m = .ok a m₁ ∧ f a m₁ = .ok b m' := by
  cases hx : x m with
  | ok a m₁ => exact ⟨a, m₁, rfl, by rwa [bind_of_ok hx] at h⟩
  | error e m₁ => rw [bind_of_error hx] at h; cases h

/-- A sequence stops where its first part stops, or else where its second part does. -/
theorem bind_eq_error {x : Eval α} {f : α → Eval β} {m m' : Machine} {e : Stop}
    (h : (x >>= f) m = .error e m') :
    x m = .error e m' ∨ ∃ a m₁, x m = .ok a m₁ ∧ f a m₁ = .error e m' := by
  cases hx : x m with
  | ok a m₁ => exact .inr ⟨a, m₁, rfl, by rwa [bind_of_ok hx] at h⟩
  | error e₁ m₁ =>
    rw [bind_of_error hx] at h
    cases h
    exact .inl rfl

theorem bind_after_of_ok {x : Eval α} {f : α → Eval β} {m m₁ : Machine} {a : α}
    (h : x m = .ok a m₁) : (x >>= f).after m = (f a).after m₁ := by
  simp only [after, bind_of_ok h]

theorem bind_after_of_error {x : Eval α} {f : α → Eval β} {m m₁ : Machine} {e : Stop}
    (h : x m = .error e m₁) : (x >>= f).after m = x.after m := by
  rw [after_of_error h, after_of_error (bind_of_error h)]

/-! ## Single steps -/

theorem count_bind (f : Counters → Counters) (g : Unit → Eval β) (m : Machine) :
    (Eval.count f >>= g) m = g () (m.counted f) := rfl

theorem stamp_apply (m : Machine) : Eval.stamp m = .ok m.world.stamp.1 m.stamped := rfl

theorem bindNames_apply (env : Env) (bindings : List (Name × Value)) (m : Machine) :
    Eval.bind env bindings m = .ok (env.extendMany m.world.stamp.1 bindings) m.stamped := rfl

theorem operate_of_ok {cx : Context} {op : Operator} {args : List Value} {m : Machine}
    {v : Value} {w : World} (h : op.apply cx args m.world = (.ok v, w)) (site : Site) :
    Eval.operate cx op args site m = .ok v { m with world := w } := by
  simp only [Eval.operate, h]

theorem operate_of_error {cx : Context} {op : Operator} {args : List Value} {m : Machine}
    {f : Fault} {w : World} (h : op.apply cx args m.world = (.error f, w)) (site : Site) :
    Eval.operate cx op args site m =
      .error (.fault (f.withSite site)) { m with world := w } := by
  simp only [Eval.operate, h]

/-! ## Calls -/

theorem enter_of_admits {m : Machine} (h : m.Admits) (callee : Option Name) (site : Site) :
    Eval.enter callee site m = .ok () (m.entered ⟨callee, site.span⟩) := by
  have hpush : m.stack.push ⟨callee, site.span⟩ = .ok (m.stack.add ⟨callee, site.span⟩) := by
    unfold CallStack.push
    split
    · rename_i limit hl
      rw [if_neg (Nat.not_le.mpr (h limit hl))]
    · rfl
  simp only [Eval.enter, hpush]
  rfl

theorem enter_of_full {m : Machine} {limit : Nat} (hl : m.stack.limit? = some limit)
    (h : limit ≤ m.stack.depth) (callee : Option Name) (site : Site) :
    Eval.enter callee site m =
      .error (.fault ((Fault.ofCause (.stackOverflow limit)).withSite site)) m := by
  have hpush : m.stack.push ⟨callee, site.span⟩ = .error (.stackOverflow limit) := by
    simp only [CallStack.push, hl, if_pos h]
  simp only [Eval.enter, hpush]
  rfl

/-- The environment in which the body of a called function runs. -/
def bodyEnv (code : Code) (env : Env) (args : List Value) : Eval Env := do
  let outer ← Eval.unfold code env
  Eval.bind outer (code.params.zip args)

/-- The frames of a call are made without a stop; only stamps are taken. -/
theorem bodyEnv_apply (code : Code) (env : Env) (args : List Value) (m : Machine) :
    ∃ inner w, bodyEnv code env args m = .ok inner { m with world := w } := by
  cases code with
  | lambda id h b => exact ⟨_, _, rfl⟩
  | member id fs i => exact ⟨_, _, rfl⟩

/-- The body of a function runs in the frame of its parameters, inside that of its group if it is a
member of one, inside the environment that it remembers. -/
theorem bodyEnv_ok {code : Code} {env inner : Env} {args : List Value} {m m' : Machine}
    (h : bodyEnv code env args m = .ok inner m') : ∃ stamp stamp',
      inner = (env.ofCode stamp code).extendMany stamp' (code.params.zip args) := by
  cases code with
  | lambda id header body =>
    cases h
    exact ⟨⟨0⟩, _, rfl⟩
  | member id functions i =>
    cases h
    exact ⟨_, _, rfl⟩

/-- The body of a call, run in its own frames and left again. -/
def body (names : NameTable) (run : Env → Term → Eval Value) (code : Code) (env : Env)
    (args : List Value) : Eval Value :=
  Eval.leaving names (bodyEnv code env args >>= fun inner => run inner code.body)

theorem leaving_of_ok {names : NameTable} {x : Eval α} {m m' : Machine} {a : α}
    (h : x m = .ok a m') : Eval.leaving names x m = .ok a m'.leave := by
  simp only [Eval.leaving, h]

theorem leaving_of_fault {names : NameTable} {x : Eval α} {m m' : Machine} {f : Fault}
    (h : x m = .error (.fault f) m') :
    Eval.leaving names x m =
      .error (.fault (if f.backtrace.isSome then f else m'.stack.attach names f)) m'.leave := by
  simp only [Eval.leaving, h]

theorem leaving_of_exhausted {names : NameTable} {x : Eval α} {m m' : Machine}
    (h : x m = .error .exhausted m') :
    Eval.leaving names x m = .error .exhausted m'.leave := by
  simp only [Eval.leaving, h]

theorem leaving_of_error {names : NameTable} {x : Eval α} {m m' : Machine} {e : Stop}
    (h : x m = .error e m') :
    Eval.leaving names x m = .error (e.leaving names m'.stack) m'.leave := by
  cases e with
  | fault f => exact leaving_of_fault h
  | exhausted => exact leaving_of_exhausted h

theorem leaving_after (names : NameTable) (x : Eval α) (m : Machine) :
    (Eval.leaving names x).after m = (x.after m).leave := by
  cases h : x m with
  | ok a m' => rw [after_of_ok (leaving_of_ok h), after_of_ok h]
  | error e m' => rw [after_of_error (leaving_of_error h), after_of_error h]

end Eval

namespace Context

variable (cx : Context) (run : Env → Term → Eval Value) {code : Code} (env : Env)
  {args : List Value} (site : Site)

/-- A call with too many or too few arguments is refused before anything else. -/
theorem callWith_wrongCount (h : code.arity ≠ args.length) :
    cx.callWith run code env args site =
      Eval.raise site (.arityMismatch (code.callee cx.names) code.arity args.length) := by
  simp only [callWith, if_neg h]

/-- A call beyond the limit is refused and leaves the machine as it was. -/
theorem callWith_full {m : Machine} {limit : Nat} (h : code.arity = args.length)
    (hl : m.stack.limit? = some limit) (hfull : limit ≤ m.stack.depth) :
    cx.callWith run code env args site m =
      .error (.fault ((Fault.ofCause (.stackOverflow limit)).withSite site)) m := by
  simp only [callWith, if_pos h]
  exact Eval.bind_of_error (Eval.enter_of_full hl hfull _ _)

/-- Any other call is entered, and its body runs on the machine it was entered with. -/
theorem callWith_entered {m : Machine} (h : code.arity = args.length) (ha : m.Admits) :
    cx.callWith run code env args site m =
      Eval.body cx.names run code env args (m.entered ⟨code.name?, site.span⟩) := by
  simp only [callWith, if_pos h]
  rw [Eval.bind_of_ok (Eval.enter_of_admits ha _ _)]
  cases code <;> rfl

end Context
end CapLang
