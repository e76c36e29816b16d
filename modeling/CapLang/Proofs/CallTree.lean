import CapLang.Proofs.Unfolding

/-!
# The calls that evaluation makes of itself

Evaluation of a term sets itself pieces of work: to evaluate the parts, and to apply functions.  A
piece of work is a `Job`, together with the machine on which it is begun, and `Context.Calls` says
which jobs a job leads to directly and which call of the program is entered on the way, if any.
`Context.Within` puts such steps together: its list has the calls that are under way at the inner
job and were entered since the outer one, the most recent first.

What a part gives does not depend on the patience with which it is evaluated (`Gives.unique`), so
patience appears in none of these relations.
-/
namespace CapLang

/-- A piece of work: to evaluate a term, or to apply a function to values. -/
inductive Job
  | eval (env : Env) (t : Term) (m : Machine)
  | apply (code : Code) (env : Env) (args : List Value) (site : Site) (m : Machine)

namespace Job

/-- The machine on which the work is begun. -/
def machine : Job → Machine
  | eval _ _ m => m
  | apply _ _ _ _ m => m

/-- The size of the term to evaluate; to apply a function is less than to evaluate any term. -/
noncomputable def size : Job → Nat
  | eval _ t _ => sizeOf t
  | apply .. => 0

end Job

theorem CallStack.room_mono (s : CallStack) {p q : Nat} (h : p ≤ q) : s.room p ≤ s.room q := by
  unfold CallStack.room
  cases s.limit? with
  | none => exact h
  | some limit => exact Nat.le_refl _

theorem CallStack.room_of_limit {s : CallStack} {limit : Nat} (h : s.limit? = some limit)
    (p : Nat) : s.room p = limit - s.depth := by
  simp only [CallStack.room, h]

namespace Context

variable (cx : Context)

theorem eval_refines {p q : Nat} (h : p ≤ q) (env : Env) (t : Term) :
    Eval.Refines (cx.eval p env t) (cx.eval q env t) :=
  fun m hm => evalWith_refines cx (m.stack.room_mono h) 0 0 env t m hm

theorem evalAll_refines {p q : Nat} (h : p ≤ q) (env : Env) (ts : List Term) :
    Eval.Refines (cx.evalAll p env ts) (cx.evalAll q env ts) :=
  fun m hm => (refines_congruence cx).evalAll
    (cx.callWithin_refines (m.stack.room_mono h)) 0 0 env ts m hm

/-! ## Values of parts -/

/-- A term has a value, if only the patience suffices. -/
def Gives (env : Env) (t : Term) (m : Machine) (v : Value) (m' : Machine) : Prop :=
  ∃ p, cx.eval p env t m = .ok v m'

/-- Terms have values, if only the patience suffices. -/
def GivesAll (env : Env) (ts : List Term) (m : Machine) (vs : List Value) (m' : Machine) : Prop :=
  ∃ p, cx.evalAll p env ts m = .ok vs m'

variable {cx} {env : Env} {t : Term} {ts : List Term} {m m' m₁ m₂ : Machine} {v w : Value}
  {vs ws : List Value}

/-- A step that changes no end with more patience gives at most one result. -/
theorem result_unique {α : Type} {x : Nat → Eval α}
    (hrefines : ∀ {p q}, p ≤ q → Eval.Refines (x p) (x q)) {p q : Nat} {a b : α}
    (hp : x p m = .ok a m₁) (hq : x q m = .ok b m₂) : a = b ∧ m₁ = m₂ := by
  -- With the greater patience both results are given.
  have ha := (hrefines (Nat.le_max_left p q)).of_ok hp
  have hb := (hrefines (Nat.le_max_right p q)).of_ok hq
  rw [ha] at hb
  cases hb
  exact ⟨rfl, rfl⟩

theorem Gives.unique (h₁ : cx.Gives env t m v m₁) (h₂ : cx.Gives env t m w m₂) :
    v = w ∧ m₁ = m₂ := by
  obtain ⟨p, hp⟩ := h₁
  obtain ⟨q, hq⟩ := h₂
  exact result_unique (fun hpq => cx.eval_refines hpq env t) hp hq

theorem GivesAll.unique (h₁ : cx.GivesAll env ts m vs m₁) (h₂ : cx.GivesAll env ts m ws m₂) :
    vs = ws ∧ m₁ = m₂ := by
  obtain ⟨p, hp⟩ := h₁
  obtain ⟨q, hq⟩ := h₂
  exact result_unique (fun hpq => cx.evalAll_refines hpq env ts) hp hq

theorem Gives.stack (h : cx.Gives env t m v m') : m'.stack = m.stack :=
  h.elim fun p hp => (cx.eval_balanced p env t).stack_of_ok hp

theorem GivesAll.stack (h : cx.GivesAll env ts m vs m') : m'.stack = m.stack :=
  h.elim fun p hp => (cx.evalAll_balanced p env ts).stack_of_ok hp

theorem givesAll_nil : cx.GivesAll env [] m [] m := ⟨0, rfl⟩

theorem GivesAll.cons (h : cx.Gives env t m v m₁) (hs : cx.GivesAll env ts m₁ vs m') :
    cx.GivesAll env (t :: ts) m (v :: vs) m' := by
  obtain ⟨p, hp⟩ := h
  obtain ⟨q, hq⟩ := hs
  have hv := (cx.eval_refines (Nat.le_max_left p q) env t).of_ok hp
  have hvs := (cx.evalAll_refines (Nat.le_max_right p q) env ts).of_ok hq
  refine ⟨max p q, ?_⟩
  rw [evalAll_cons, Eval.bind_of_ok hv, Eval.bind_of_ok hvs]
  rfl

theorem GivesAll.of_nil (h : cx.GivesAll env [] m vs m') : m' = m := by
  obtain ⟨p, hp⟩ := h
  cases hp
  rfl

theorem GivesAll.of_cons (h : cx.GivesAll env (t :: ts) m vs m') :
    ∃ v ws m₁, vs = v :: ws ∧ cx.Gives env t m v m₁ ∧ cx.GivesAll env ts m₁ ws m' := by
  obtain ⟨p, hp⟩ := h
  rw [evalAll_cons] at hp
  obtain ⟨v, m₁, hv, hrest⟩ := Eval.bind_eq_ok hp
  obtain ⟨ws, m₂, hws, hpure⟩ := Eval.bind_eq_ok hrest
  cases hpure
  exact ⟨v, ws, m₁, rfl, ⟨p, hv⟩, p, hws⟩

variable (cx)

/-- Terms are evaluated in turn, and the turn comes to one of them. -/
inductive Turn (env : Env) : List Term → Machine → Term → Machine → Prop
  | now {t : Term} {ts : List Term} {m : Machine} : Turn env (t :: ts) m t m
  | later {t u : Term} {ts : List Term} {m m₁ m' : Machine} {v : Value}
      (value : cx.Gives env t m v m₁) (rest : Turn env ts m₁ u m') : Turn env (t :: ts) m u m'

variable {cx}

theorem Turn.mem {u : Term} (h : cx.Turn env ts m u m') : u ∈ ts := by
  induction h with
  | now => exact List.mem_cons_self
  | later _ _ ih => exact List.mem_cons_of_mem _ ih

/-- The turn comes to a term once those before it have values. -/
theorem turn_iff {u : Term} : cx.Turn env ts m u m' ↔
    ∃ i vs, cx.GivesAll env (ts.take i) m vs m' ∧ ts[i]? = some u := by
  constructor
  · intro h
    induction h with
    | now => exact ⟨0, [], givesAll_nil, rfl⟩
    | later value _ ih =>
      obtain ⟨i, vs, hvs, hi⟩ := ih
      exact ⟨i + 1, _, GivesAll.cons value hvs, hi⟩
  · rintro ⟨i, vs, hvs, hi⟩
    induction ts generalizing i m vs with
    | nil => cases hi
    | cons t ts ih =>
      cases i with
      | zero =>
        cases hi
        obtain rfl := hvs.of_nil
        exact .now
      | succ i =>
        obtain ⟨v, ws, m₁, rfl, hv, hws⟩ := GivesAll.of_cons hvs
        exact .later hv (ih i ws hws hi)

theorem Turn.stack {u : Term} (h : cx.Turn env ts m u m') : m'.stack = m.stack := by
  induction h with
  | now => rfl
  | later value _ ih => rw [ih, value.stack]

variable (cx)

/-! ## Jobs within jobs -/

/-- **A job leads directly to another one**, and enters the listed call on the way. -/
inductive Calls : Job → List Call → Job → Prop
  /-- The function of an application. -/
  | func {env span func args m} : Calls (.eval env (.app span func args) m) []
      (.eval env func (m.counted .term))
  /-- An argument of an application. -/
  | argument {env span func args m code closed m₁ u m₂}
      (callee : cx.Gives env func (m.counted .term) (.closure code closed) m₁)
      (turn : cx.Turn env args m₁ u m₂) :
      Calls (.eval env (.app span func args) m) [] (.eval env u m₂)
  /-- The application itself. -/
  | call {env span func args m code closed m₁ values m₂}
      (callee : cx.Gives env func (m.counted .term) (.closure code closed) m₁)
      (arguments : cx.GivesAll env args m₁ values m₂) :
      Calls (.eval env (.app span func args) m) []
        (.apply code closed values (.ofTerm (.app span func args)) m₂)
  /-- The body of a function, once the call is entered and its names are bound. -/
  | body {code env args site m inner m₁} (count : code.arity = args.length) (admits : m.Admits)
      (bound : Eval.bodyEnv code env args (m.entered ⟨code.name?, site.span⟩) = .ok inner m₁) :
      Calls (.apply code env args site m) [⟨code.name?, site.span⟩] (.eval inner code.body m₁)
  | letValue {env span x value body m} : Calls (.eval env (.letIn span x value body) m) []
      (.eval env value (m.counted .term))
  | letBody {env span x value body m v m₁} (bound : cx.Gives env value (m.counted .term) v m₁) :
      Calls (.eval env (.letIn span x value body) m) []
        (.eval (env.extendMany m₁.world.stamp.1 [(x, v)]) body m₁.stamped)
  | letRecBody {env span id functions body m} :
      Calls (.eval env (.letRec span id functions body) m) []
        (.eval (env.bindGroup m.world.stamp.1 id functions) body (m.counted .term).stamped)
  | condition {env span cond thenBranch elseBranch m} :
      Calls (.eval env (.ifThenElse span cond thenBranch elseBranch) m) []
        (.eval env cond (m.counted .term))
  | branch {env span cond thenBranch elseBranch m b m₁}
      (condition : cx.Gives env cond (m.counted .term) (.bool b) m₁) :
      Calls (.eval env (.ifThenElse span cond thenBranch elseBranch) m) []
        (.eval env (if b then thenBranch else elseBranch) m₁)
  | scrutinee {env span scrutinee alternatives m} :
      Calls (.eval env (.caseOf span scrutinee alternatives) m) []
        (.eval env scrutinee (m.counted .term))
  /-- The body of the alternative that the scrutinee selects. -/
  | alternative {env span scrutinee alternatives m v m₁ bindings body}
      (value : cx.Gives env scrutinee (m.counted .term) v m₁)
      (chosen : Term.choose v alternatives = some (bindings, body)) :
      Calls (.eval env (.caseOf span scrutinee alternatives) m) []
        (.eval (env.extendMany m₁.world.stamp.1 bindings) body (m₁.counted .case).stamped)
  | fieldValue {env span fields m u m₁}
      (turn : cx.Turn env (fields.map (·.2)) (m.counted .term) u m₁) :
      Calls (.eval env (.record span fields) m) [] (.eval env u m₁)
  | base {env span base x m} : Calls (.eval env (.field span base x) m) []
      (.eval env base (m.counted .term))
  | payload {env span tag payload m} : Calls (.eval env (.variant span tag payload) m) []
      (.eval env payload (m.counted .term))
  | operand {env span op args m u m₁} (turn : cx.Turn env args (m.counted .term) u m₁) :
      Calls (.eval env (.prim span op args) m) [] (.eval env u m₁)

/-- **A job leads to another one.**  The list has the calls entered on the way, the most recent
first; all of them are under way at the inner job. -/
inductive Within : Job → List Call → Job → Prop
  | refl {j : Job} : Within j [] j
  | head {j k l : Job} {new active : List Call} (step : Calls cx j new k)
      (rest : Within k active l) : Within j (active ++ new) l

variable {cx} {j k l : Job} {new active : List Call}

/-- **A job either stays within the call it is in or enters one call.**  In the first case the
stack is as it was and the inner job is smaller. -/
theorem Calls.stays_or_enters (h : cx.Calls j new k) :
    (new = [] ∧ k.machine.stack = j.machine.stack ∧ k.size < j.size) ∨
      ∃ c, new = [c] ∧ k.machine.stack = j.machine.stack.add c ∧ j.machine.Admits := by
  cases h with
  | body count admits bound =>
    obtain ⟨inner, w, hw⟩ := Eval.bodyEnv_apply _ _ _ _
    rw [hw] at bound
    cases bound
    exact .inr ⟨_, rfl, rfl, admits⟩
  | argument callee turn =>
    have hmem := List.sizeOf_lt_of_mem turn.mem
    refine .inl ⟨rfl, turn.stack.trans callee.stack, ?_⟩
    simp only [Job.size, Term.app.sizeOf_spec]
    omega
  | call callee arguments =>
    refine .inl ⟨rfl, arguments.stack.trans callee.stack, ?_⟩
    simp only [Job.size, Term.app.sizeOf_spec]
    omega
  | letBody bound =>
    refine .inl ⟨rfl, bound.stack, ?_⟩
    simp only [Job.size, Term.letIn.sizeOf_spec]
    omega
  | @branch env span cond thenBranch elseBranch m b m₁ condition =>
    refine .inl ⟨rfl, condition.stack, ?_⟩
    simp only [Job.size, Term.ifThenElse.sizeOf_spec]
    cases b with
    | true =>
      rw [if_pos rfl]
      omega
    | false =>
      rw [if_neg Bool.false_ne_true]
      omega
  | alternative value chosen =>
    obtain ⟨p, hmem, -⟩ := Term.choose_mem chosen
    have hlt := List.sizeOf_lt_of_mem hmem
    refine .inl ⟨rfl, value.stack, ?_⟩
    simp only [Job.size, Term.caseOf.sizeOf_spec, Prod.mk.sizeOf_spec] at hlt ⊢
    omega
  | fieldValue turn =>
    obtain ⟨⟨x, u⟩, hmem, rfl⟩ := List.mem_map.mp turn.mem
    have hlt := List.sizeOf_lt_of_mem hmem
    refine .inl ⟨rfl, turn.stack, ?_⟩
    simp only [Job.size, Term.record.sizeOf_spec, Prod.mk.sizeOf_spec] at hlt ⊢
    omega
  | operand turn =>
    have hmem := List.sizeOf_lt_of_mem turn.mem
    refine .inl ⟨rfl, turn.stack, ?_⟩
    simp only [Job.size, Term.prim.sizeOf_spec]
    omega
  | _ =>
    refine .inl ⟨rfl, rfl, ?_⟩
    simp only [Job.size, Term.app.sizeOf_spec, Term.letIn.sizeOf_spec, Term.letRec.sizeOf_spec,
      Term.ifThenElse.sizeOf_spec, Term.caseOf.sizeOf_spec, Term.field.sizeOf_spec,
      Term.variant.sizeOf_spec]
    omega

/-- The inner job begins with the calls entered on the way on top of those of the outer one. -/
theorem Calls.stack (h : cx.Calls j new k) :
    k.machine.stack.calls = new ++ j.machine.stack.calls ∧
      k.machine.stack.limit? = j.machine.stack.limit? := by
  rcases h.stays_or_enters with ⟨rfl, hs, -⟩ | ⟨c, rfl, hs, -⟩
  · rw [hs]
    exact ⟨rfl, rfl⟩
  · rw [hs]
    exact ⟨rfl, rfl⟩

/-- A part is evaluated with the same stack and is smaller. -/
theorem Calls.stays (h : cx.Calls j [] k) :
    k.machine.stack = j.machine.stack ∧ k.size < j.size := by
  rcases h.stays_or_enters with ⟨-, hs, hsize⟩ | ⟨c, hc, -⟩
  · exact ⟨hs, hsize⟩
  · cases hc

theorem Within.stack (h : cx.Within j active k) :
    k.machine.stack.calls = active ++ j.machine.stack.calls ∧
      k.machine.stack.limit? = j.machine.stack.limit? := by
  induction h with
  | refl => exact ⟨rfl, rfl⟩
  | head step rest ih =>
    obtain ⟨hcalls, hlimit⟩ := step.stack
    rw [ih.1, ih.2, hcalls, List.append_assoc]
    exact ⟨rfl, hlimit⟩

/-- One more step leads from a job within to the next. -/
theorem Within.last (h : cx.Within j active k) (step : cx.Calls k new l) :
    cx.Within j (new ++ active) l := by
  induction h with
  | refl =>
    rw [List.append_nil]
    exact .head step .refl
  | head first _ ih =>
    rw [← List.append_assoc]
    exact .head first (ih step)

end Context
end CapLang
