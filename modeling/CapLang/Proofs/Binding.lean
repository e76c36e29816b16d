import CapLang.Proofs.Counting
import CapLang.Proofs.Rebasing
import CapLang.Proofs.Tandem
import CapLang.Proofs.Termination

/-!
# Three ways to bind a value

`let x = e in b`, `case e of x => b` and `(fun (x) b)(e)` evaluate `e`, bind its value to `x` in one
frame, and evaluate `b` there.  The case differs from the let in nothing but the count of cases.
The application evaluates `b` inside a call.  So it may be refused for its depth, and a fault of `b`
shows one call more: beneath the calls that `b` made, and on top of those that were under way
before (`three_binders_agree`).
-/
namespace CapLang

theorem Machine.admits_congr {m₁ m₂ : Machine} (hs : m₁.stack = m₂.stack) :
    m₁.Admits ↔ m₂.Admits := by
  simp only [Admits, hs]

namespace Fault

/-- The frames that calls attach are those of the calls that a fault has left, and then those of the
calls under way. -/
theorem traceOf_calls (names : NameTable) (active : List Call) (s : CallStack) :
    traceOf names active s.calls =
      if active.map (·.frame names) = [] then none
      else some ⟨active.map (·.frame names) ++ (s.capture names).frames⟩ := by
  have hcapture : (s.capture names).frames = s.calls.map (·.frame names) := rfl
  simp only [traceOf, hcapture, List.map_eq_nil_iff, List.map_append]

theorem traceOf_snoc (names : NameTable) (active : List Call) (c : Call) (s : CallStack) :
    traceOf names (active ++ [c]) s.calls =
      some ⟨active.map (·.frame names) ++ c.frame names :: (s.capture names).frames⟩ := by
  rw [traceOf_calls, if_neg (by simp)]
  simp

end Fault

namespace Context

/-- **How `(fun (x) b)(e)` ends, if `let x = e in b` ends in the first way.**  Up to what they count,
the machines are the same in the end. -/
inductive AppliedAlike (cx : Context) (p : Nat) (env : Env) (e : Term) (site : Option Span)
    (m : Machine) :
    EStateM.Result Stop Machine Value → EStateM.Result Stop Machine Value → Prop
  | value (v : Value) {m₁ m₂ : Machine} (machines : m₁.uncounted = m₂.uncounted) :
      AppliedAlike cx p env e site m (.ok v m₁) (.ok v m₂)
  /-- The fault of `e` is the fault of both. -/
  | operand {f : Fault} {m₀ m₁ m₂ : Machine}
      (faults : cx.eval p env e (m.counted .term) = .error (.fault f) m₀)
      (machines : m₁.uncounted = m₂.uncounted) :
      AppliedAlike cx p env e site m (.error (.fault f) m₁) (.error (.fault f) m₂)
  /-- The faults of `b` differ in their backtraces, by the call of the function.  In the let, a fault
  that has left no call of `b` has no backtrace yet; it gets the calls under way when it leaves the
  most recent of them. -/
  | body {v : Value} {m₀ m₁ m₂ : Machine}
      (gives : cx.eval p env e (m.counted .term) = .ok v m₀) (raw : Fault)
      (inside : List BacktraceFrame) (machines : m₁.uncounted = m₂.uncounted) :
      AppliedAlike cx p env e site m
        (.error (.fault { raw with
          backtrace := if inside = [] then none
            else some ⟨inside ++ (m.stack.capture cx.names).frames⟩ }) m₁)
        (.error (.fault { raw with
          backtrace := some ⟨inside ++ ⟨"<anonymous>", site⟩ ::
            (m.stack.capture cx.names).frames⟩ }) m₂)
  /-- A backtrace that a host object attached stays as it is. -/
  | host {f : Fault} {m₁ m₂ : Machine} (attached : f.backtrace.isSome)
      (raised : cx.RaisedLast f m₁.world) (machines : m₁.uncounted = m₂.uncounted) :
      AppliedAlike cx p env e site m (.error (.fault f) m₁) (.error (.fault f) m₂)

variable {cx : Context} {p : Nat} {env : Env} {x : Name} {e b : Term} {m m₁ : Machine} {v : Value}
  {stop : Stop} {id : CodeId} {s s' s'' : Option Span}

/-! ## What the three forms come to -/

theorem eval_letIn_of_ok (h : cx.eval p env e (m.counted .term) = .ok v m₁) :
    cx.eval p env (.letIn s x e b) m =
      cx.eval p (env.extendMany m₁.world.stamp.1 [(x, v)]) b m₁.stamped := by
  rw [eval_letIn, Eval.count_bind, Eval.bind_of_ok h, Eval.bind_of_ok (Eval.bindNames_apply ..)]

theorem eval_letIn_of_error (h : cx.eval p env e (m.counted .term) = .error stop m₁) :
    cx.eval p env (.letIn s x e b) m = .error stop m₁ := by
  rw [eval_letIn, Eval.count_bind, Eval.bind_of_error h]

theorem eval_caseOf_of_ok (h : cx.eval p env e (m.counted .term) = .ok v m₁) :
    cx.eval p env (.caseOf s e [(.bind x, b)]) m =
      cx.eval p (env.extendMany m₁.world.stamp.1 [(x, v)]) b
        (m₁.stamped.recounted (Option.map .case)) := by
  rw [eval_caseOf, Eval.count_bind, Eval.bind_of_ok h, Eval.count_bind]
  exact Eval.bind_of_ok (Eval.bindNames_apply ..)

theorem eval_caseOf_of_error (h : cx.eval p env e (m.counted .term) = .error stop m₁) :
    cx.eval p env (.caseOf s e [(.bind x, b)]) m = .error stop m₁ := by
  rw [eval_caseOf, Eval.count_bind, Eval.bind_of_error h]

/-- The function is a term of its own, so one more term is counted before `e` is evaluated. -/
theorem eval_app_lambda : cx.eval p env (.app s (.lambda s' id ⟨none, [x]⟩ b) [e]) m =
    (cx.eval p env e >>= fun v => cx.apply p (.lambda id ⟨none, [x]⟩ b) env [v]
      (.ofTerm (.app s (.lambda s' id ⟨none, [x]⟩ b) [e])))
        ((m.counted .term).recounted (Option.map .term)) := by
  have hfunction : cx.eval p env (.lambda s' id ⟨none, [x]⟩ b) (m.counted .term) =
      .ok (.closure (.lambda id ⟨none, [x]⟩ b) env)
        ((m.counted .term).recounted (Option.map .term)) := rfl
  rw [eval_app, Eval.count_bind, Eval.bind_of_ok hfunction]
  simp only [evalAll_cons, evalAll_nil, bind_assoc, pure_bind]

theorem eval_app_lambda_of_ok (h : cx.eval p env e (m.counted .term) = .ok v m₁) :
    cx.eval p env (.app s (.lambda s' id ⟨none, [x]⟩ b) [e]) m =
      cx.apply p (.lambda id ⟨none, [x]⟩ b) env [v]
        (.ofTerm (.app s (.lambda s' id ⟨none, [x]⟩ b) [e])) (m₁.recounted (Option.map .term)) := by
  have hmore := (cx.eval_recounted Counters.steady_term p env e _).of_ok h
  rw [eval_app_lambda, Eval.bind_of_ok hmore]

theorem eval_app_lambda_of_error (h : cx.eval p env e (m.counted .term) = .error stop m₁) :
    cx.eval p env (.app s (.lambda s' id ⟨none, [x]⟩ b) [e]) m =
      .error stop (m₁.recounted (Option.map .term)) := by
  have hmore := (cx.eval_recounted Counters.steady_term p env e _).of_error h
  rw [eval_app_lambda, Eval.bind_of_error hmore]

/-- The body of the application does what the body of the let does, on top of one more call. -/
theorem apply_lambda_entered {inner : Env} (hs : m₁.stack = m.stack) (hadmits : m.Admits)
    (hroom : 0 < m.stack.room p) (site : Site)
    (hinner : inner = env.extendMany m₁.world.stamp.1 [(x, v)]) :
    let body : Eval Value := b.evalWith cx (cx.callWithin (m.stack.room p - 1)) 0 inner
    ∃ m₂, EndsRebased cx m.stack.calls (⟨none, site.span⟩ :: m.stack.calls) m.stack.limit? []
        (body m₁.stamped) (body m₂) ∧
      cx.apply p (.lambda id ⟨none, [x]⟩ b) env [v] site (m₁.recounted (Option.map .term)) =
        Eval.leaving cx.names body m₂ := by
  intro body
  let call : Call := ⟨none, site.span⟩
  let m₀ := m₁.recounted (Option.map .term)
  have hs₀ : m₀.stack = m.stack := hs
  have hadmits₀ : m₀.Admits := (Machine.admits_congr hs₀).mpr hadmits
  have hroom₀ : 0 < m₀.stack.room p := by rwa [hs₀]
  refine ⟨(m₀.entered call).stamped, ?_, ?_⟩
  · refine evalWith_rebased (Nat.le_succ _) _ 0 0 inner b [] _ _ ?_
    have hcalls : m₁.stack.calls = m.stack.calls := congrArg CallStack.calls hs
    have hlimit : m₁.stack.limit? = m.stack.limit? := congrArg CallStack.limit? hs
    exact ⟨hcalls, congrArg (call :: ·) hcalls, hlimit, hlimit, rfl⟩
  · have hinside : (m₀.entered call).stamped.stack.room (p - 1) = m.stack.room p - 1 := by
      have hadd : m.stack.room p = m.stack.room p - 1 + 1 := by omega
      rw [← CallStack.room_add m.stack call hadd, ← hs]
      rfl
    rw [cx.apply_entered p env site rfl hadmits₀ hroom₀]
    show Eval.leaving cx.names (cx.eval (p - 1) _ b) (m₀.entered call).stamped = _
    simp only [Eval.leaving, eval, hinside, body, hinner]
    rfl

/-- A call that ends is refused, or there is room for its body. -/
theorem room_pos_of_apply {code : Code} {args : List Value} {site : Site}
    (hcount : code.arity = args.length) (hadmits : m.Admits)
    (hends : ∀ m', cx.apply p code env args site m ≠ .error .exhausted m') :
    0 < m.stack.room p := by
  refine Nat.pos_of_ne_zero fun hroom => ?_
  obtain ⟨-, m', hexhausted⟩ := cx.apply_exhausted p env site hcount hadmits hroom
  exact hends m' hexhausted

/-- A body that ends on top of one more call, which it then leaves, ends as it does without it. -/
theorem AppliedAlike.of_rebased {m₀ m₁ m₂ : Machine} {x y : Eval Value}
    (gives : cx.eval p env e (m.counted .term) = .ok v m₀)
    (h : EndsRebased cx m.stack.calls (⟨none, s⟩ :: m.stack.calls) m.stack.limit? [] (x m₁) (y m₂))
    (hends : ∀ m', Eval.leaving cx.names y m₂ ≠ .error .exhausted m')
    (hdepth : m.stack.limit? = none ∨ ∀ f m', Eval.leaving cx.names y m₂ = .error (.fault f) m' →
      f.cause.faultClass ≠ .stackOverflow) :
    AppliedAlike cx p env e s m (x m₁) (Eval.leaving cx.names y m₂) := by
  generalize hx : x m₁ = r₁ at h
  generalize hy : y m₂ = r₂ at h
  cases h with
  | ok a machines =>
    rw [Eval.leaving_of_ok hy]
    exact .value a machines.uncounted_leave
  | fault faults machines =>
    rw [Eval.leaving_of_error hy]
    cases faults with
    | @traced raw plain active =>
      have htraced := Fault.traced_leaving cx.names raw active m.stack.calls _ machines.new
      rw [Fault.traceOf_snoc] at htraced
      rw [List.nil_append, List.nil_append, htraced, Fault.traceOf_calls]
      exact .body gives raw _ machines.uncounted_leave
    | host attached raised =>
      rw [Fault.attached_leaving cx.names attached]
      exact .host attached raised machines.uncounted_leave
  | exhausted machines => exact absurd (Eval.leaving_of_exhausted hy) (hends _)
  | @overflow _ f m₂' limited overflows =>
    obtain ⟨g, hg, hcause⟩ := Stop.leaving_fault cx.names m₂'.stack f
    have hover : Eval.leaving cx.names y m₂ = .error (.fault g) m₂'.leave := by
      rw [Eval.leaving_of_error hy, hg]
    rcases hdepth with hnone | hdepth
    · rw [hnone] at limited
      cases limited
    · exact absurd (hcause ▸ overflows) (hdepth g _ hover)

theorem AppliedAlike.ends {r₁ r₂ : EStateM.Result Stop Machine Value}
    (h : AppliedAlike cx p env e s m r₁ r₂) (m' : Machine) : r₁ ≠ .error .exhausted m' := by
  cases h <;> nofun

theorem app_alike_let
    (hends : ∀ m', cx.eval p env (.app s (.lambda s' id ⟨none, [x]⟩ b) [e]) m ≠
      .error .exhausted m')
    (hdepth : m.stack.limit? = none ∨ ∀ f m',
      cx.eval p env (.app s (.lambda s' id ⟨none, [x]⟩ b) [e]) m = .error (.fault f) m' →
        f.cause.faultClass ≠ .stackOverflow) :
    AppliedAlike cx p env e s m (cx.eval p env (.letIn s'' x e b) m)
      (cx.eval p env (.app s (.lambda s' id ⟨none, [x]⟩ b) [e]) m) := by
  cases he : cx.eval p env e (m.counted .term) with
  | error stop m₁ =>
    rw [eval_app_lambda_of_error he] at hends ⊢
    rw [eval_letIn_of_error he]
    cases stop with
    | exhausted => exact absurd rfl (hends _)
    | fault f => exact .operand he rfl
  | ok v m₁ =>
    have hs := (cx.eval_balanced p env e).stack_of_ok he
    rw [Machine.counted_stack] at hs
    rw [eval_app_lambda_of_ok he] at hends hdepth ⊢
    rw [eval_letIn_of_ok he]
    rcases m.admits_or_full with hadmits | ⟨limit, hl, hfull⟩
    · have hroom : 0 < m.stack.room p := by
        have hcall := (Machine.admits_congr hs).mpr hadmits
        rw [← hs]
        exact room_pos_of_apply (m := m₁.recounted (Option.map .term)) rfl hcall hends
      obtain ⟨m₂, hbody, happlied⟩ := apply_lambda_entered hs hadmits hroom _ rfl
      rw [happlied] at hends hdepth ⊢
      have halike := AppliedAlike.of_rebased he hbody hends hdepth
      -- The let has more room for its body, which ends with less.
      have hmore := evalWith_refines cx (Nat.sub_le (m.stack.room p) 1) 0 0 _ b _ halike.ends
      rw [eval, Machine.stamped_stack, hs, hmore]
      exact halike
    · -- The call is refused for its depth, and only that is different from the let.
      rcases hdepth with hnone | hdepth
      · rw [hnone] at hl
        cases hl
      · exact absurd rfl (hdepth _ _ (cx.apply_full p env _ rfl (hs ▸ hl) (hs ▸ hfull)))

/-- A call that is entered without a limit ends if its body does. -/
theorem app_ends_of_let
    (hends : ∀ m', cx.eval p env (.letIn s'' x e b) m ≠ .error .exhausted m') (m' : Machine) :
    cx.eval (p + 1) env (.app s (.lambda s' id ⟨none, [x]⟩ b) [e]) m ≠ .error .exhausted m' := by
  intro happ
  cases hl : m.stack.limit? with
  | some limit => exact eval_not_exhausted (p + 1) env _ m hl m' happ
  | none =>
    have hroom (q : Nat) : m.stack.room q = q := by simp only [CallStack.room, hl]
    have hrefines := cx.eval_refines (Nat.le_succ p) env e
    cases he : cx.eval p env e (m.counted .term) with
    | error stop m₁ =>
      rw [eval_letIn_of_error he] at hends
      have hmore := hrefines (m.counted .term)
      rw [he] at hmore
      rw [eval_app_lambda_of_error (hmore hends)] at happ
      cases happ
      exact hends m₁ rfl
    | ok v m₁ =>
      have hs := (cx.eval_balanced p env e).stack_of_ok he
      rw [Machine.counted_stack] at hs
      have hadmits : m.Admits := fun limit h => by
        rw [hl] at h
        cases h
      have hpos : 0 < m.stack.room (p + 1) := by
        rw [hroom]
        exact Nat.succ_pos p
      obtain ⟨m₂, hbody, happlied⟩ := apply_lambda_entered hs hadmits hpos _ rfl
      rw [eval_app_lambda_of_ok (hrefines.of_ok he), happlied] at happ
      obtain ⟨m₃, hexhausted⟩ := hbody.exhausted_of_leaving hl happ
      rw [hroom, Nat.add_sub_cancel] at hexhausted
      refine hends m₃ ?_
      rw [eval_letIn_of_ok he, eval, Machine.stamped_stack, hs, hroom]
      exact hexhausted

/-- A case that binds its value ends as the let does. -/
theorem case_alike_let : EndsAlike (fun m₁ m₂ => m₁.uncounted = m₂.uncounted) Eq
    (cx.eval p env (.caseOf s e [(.bind x, b)]) m) (cx.eval p env (.letIn s' x e b) m) := by
  cases he : cx.eval p env e (m.counted .term) with
  | error stop m₁ =>
    rw [eval_caseOf_of_error he, eval_letIn_of_error he]
    exact .stop stop rfl
  | ok v m₁ =>
    rw [eval_caseOf_of_ok he, eval_letIn_of_ok he]
    have hmore := cx.eval_recounted Counters.steady_case p
      (env.extendMany m₁.world.stamp.1 [(x, v)]) b m₁.stamped
    cases hb : cx.eval p (env.extendMany m₁.world.stamp.1 [(x, v)]) b m₁.stamped with
    | ok w m₂ =>
      rw [hmore.of_ok hb]
      exact .ok rfl rfl
    | error stop m₂ =>
      rw [hmore.of_error hb]
      exact .stop stop rfl

end Context

end CapLang
