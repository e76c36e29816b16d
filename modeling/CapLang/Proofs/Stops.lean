import CapLang.Proofs.CallTree
import CapLang.Proofs.Operators

/-!
# Where a stop comes from

Evaluation of a term stops because the term itself detects a fault, or because a job that it leads
to stops.  `Context.Detects` lists the detections, each with the fault as it is when it is raised;
`eval_stop` is the inversion of a stopped evaluation and `apply_stop` that of a stopped call.
-/
namespace CapLang

namespace Context

variable (cx : Context)

/-- **A call is refused**, for the number of its arguments or else for its depth. -/
inductive Refuses (code : Code) (args : List Value) (m : Machine) : Cause → Prop
  | count (differs : code.arity ≠ args.length) :
      Refuses code args m (.arityMismatch (code.callee cx.names) code.arity args.length)
  | depth {limit : Nat} (agrees : code.arity = args.length)
      (limited : m.stack.limit? = some limit) (full : limit ≤ m.stack.depth) :
      Refuses code args m (.stackOverflow limit)

/-- **A term detects a fault**, once the parts that it needs have values. -/
inductive Detects (env : Env) : Term → Machine → Fault → Prop
  | unbound {span x m} (free : env.lookup x = none) :
      Detects env (.var span x) m (.ofCause (.unboundVariable (cx.names.resolve x)))
  | notFunction {span func args m v m₁} (callee : cx.Gives env func (m.counted .term) v m₁)
      (other : ∀ code closed, v ≠ .closure code closed) :
      Detects env (.app span func args) m (.ofCause (.notApplicable v.typeName))
  | refused {span func args m code closed m₁ values m₂ cause}
      (callee : cx.Gives env func (m.counted .term) (.closure code closed) m₁)
      (arguments : cx.GivesAll env args m₁ values m₂) (refuses : cx.Refuses code values m₂ cause) :
      Detects env (.app span func args) m (.ofCause cause)
  | notBoolean {span cond thenBranch elseBranch m v m₁}
      (condition : cx.Gives env cond (m.counted .term) v m₁) (other : ∀ b, v ≠ .bool b) :
      Detects env (.ifThenElse span cond thenBranch elseBranch) m
        (.ofCause (.typeMismatch "Boolean" v.typeName))
  | noMatch {span scrutinee alternatives m v m₁}
      (value : cx.Gives env scrutinee (m.counted .term) v m₁)
      (none : Term.choose v alternatives = none) :
      Detects env (.caseOf span scrutinee alternatives) m (.noMatch cx.names v)
  | missingField {span base x m s fields m₁}
      (record : cx.Gives env base (m.counted .term) (.record s fields) m₁)
      (missing : Value.field? x fields = none) :
      Detects env (.field span base x) m (.ofCause (.missingField (cx.names.resolve x)))
  | missingFieldOfUnit {span base x m m₁} (unit : cx.Gives env base (m.counted .term) .unit m₁) :
      Detects env (.field span base x) m (.ofCause (.missingField (cx.names.resolve x)))
  | notRecord {span base x m v m₁} (value : cx.Gives env base (m.counted .term) v m₁)
      (other : ∀ s fields, v ≠ .record s fields) (nonempty : v ≠ .unit) :
      Detects env (.field span base x) m (.ofCause (.typeMismatch "Record" v.typeName))
  | operator {span op args m values m₁ cause w}
      (operands : cx.GivesAll env args (m.counted .term) values m₁)
      (fails : op.apply cx values m₁.world = (.error (.ofCause cause), w))
      (plain : cause.faultClass.ofPrimitive) :
      Detects env (.prim span op args) m (.ofCause cause)
  /-- A host object raises a fault of its own making. -/
  | host {span method args m handle rest m₁ raw w}
      (operands : cx.GivesAll env args (m.counted .term) (.capability handle :: rest) m₁)
      (raises : cx.invoke m₁.world handle (cx.names.resolve method) rest = (.error raw, w)) :
      Detects env (.prim span (.invoke method) args) m raw

variable {cx} {p : Nat} {env : Env} {m m' : Machine} {e : Stop}

/-- Terms that are evaluated in turn stop where the first of them stops. -/
theorem evalAll_stop {ts : List Term} (h : cx.evalAll p env ts m = .error e m') :
    ∃ u m₁, cx.Turn env ts m u m₁ ∧ cx.eval p env u m₁ = .error e m' := by
  induction ts generalizing m with
  | nil => cases h
  | cons t ts ih =>
    rw [evalAll_cons] at h
    rcases Eval.bind_eq_error h with hfirst | ⟨v, m₁, hv, hrest⟩
    · exact ⟨t, m, .now, hfirst⟩
    · rcases Eval.bind_eq_error hrest with hlater | ⟨vs, m₂, hvs, hpure⟩
      · obtain ⟨u, m₂, hturn, hu⟩ := ih hlater
        exact ⟨u, m₂, .later ⟨p, hv⟩ hturn, hu⟩
      · cases hpure

/-- An admitted call for which there is room comes to what its body comes to, which is evaluated
with less room. -/
theorem apply_enters (cx : Context) {code : Code} (env : Env) {args : List Value} (site : Site)
    (hcount : code.arity = args.length) (ha : m.Admits) (hroom : 0 < m.stack.room p) :
    ∃ inner m₁, cx.Calls (.apply code env args site m) [⟨code.name?, site.span⟩]
        (.eval inner code.body m₁) ∧
      m₁.stack.room (p - 1) < m.stack.room p ∧
      cx.apply p code env args site m =
        Eval.leaving cx.names (cx.eval (p - 1) inner code.body) m₁ := by
  obtain ⟨inner, w, hw⟩ := Eval.bodyEnv_apply code env args (m.entered ⟨code.name?, site.span⟩)
  refine ⟨inner, _, .body hcount ha hw, ?_, ?_⟩
  · have hadd := @CallStack.room_add m.stack ⟨code.name?, site.span⟩ p (m.stack.room p - 1)
      (by omega)
    show (m.stack.add ⟨code.name?, site.span⟩).room (p - 1) < m.stack.room p
    omega
  · rw [cx.apply_entered p env site hcount ha hroom]
    simp only [Eval.body, Eval.leaving, Eval.bind_of_ok hw]

/-- **A call stops** because it is refused, or because its body stops, or because it nests deeper
than it was to be followed, which a limit rules out. -/
theorem apply_stop {code : Code} {args : List Value} {site : Site}
    (h : cx.apply p code env args site m = .error e m') :
    (∃ cause, cx.Refuses code args m cause ∧ e = .fault ((Fault.ofCause cause).withSite site)) ∨
    (∃ inner m₁ e₁ m₂,
      cx.Calls (.apply code env args site m) [⟨code.name?, site.span⟩]
        (.eval inner code.body m₁) ∧
      m₁.stack.room (p - 1) < m.stack.room p ∧
      cx.eval (p - 1) inner code.body m₁ = .error e₁ m₂ ∧ e = e₁.leaving cx.names m₁.stack) ∨
    (m.stack.limit? = none ∧ e = .exhausted) := by
  by_cases hcount : code.arity = args.length
  · rcases m.admits_or_full with ha | ⟨limit, hl, hfull⟩
    · rcases Nat.eq_zero_or_pos (m.stack.room p) with hzero | hroom
      · obtain ⟨hl, m₁, hex⟩ := cx.apply_exhausted p env site hcount ha hzero
        rw [hex] at h
        cases h
        exact .inr (.inr ⟨hl, rfl⟩)
      · obtain ⟨inner, m₁, hstep, hlt, happly⟩ :=
          cx.apply_enters env site hcount ha hroom
        rw [happly] at h
        cases hbody : cx.eval (p - 1) inner code.body m₁ with
        | ok v m₂ =>
          rw [Eval.leaving_of_ok hbody] at h
          cases h
        | error e₁ m₂ =>
          rw [Eval.leaving_of_error hbody] at h
          cases h
          have hstack := (cx.eval_balanced (p - 1) inner code.body).stack_of_error hbody
          exact .inr (.inl ⟨inner, m₁, e₁, m₂, hstep, hlt, hbody, by rw [hstack]⟩)
    · rw [cx.apply_full p env site hcount hl hfull] at h
      cases h
      exact .inl ⟨_, .depth hcount hl hfull, rfl⟩
  · rw [cx.apply_wrongCount p env site hcount] at h
    cases h
    exact .inl ⟨_, .count hcount, rfl⟩

/-- **A call as the machine sees it**: it is refused and changes nothing, or it is entered, and left
again after its body or, if that is not followed, at once. -/
theorem apply_after (p : Nat) (code : Code) (env : Env) (args : List Value) (site : Site)
    (m : Machine) : (cx.apply p code env args site).after m = m ∨
      ∃ inner m₁, cx.Calls (.apply code env args site m) [⟨code.name?, site.span⟩]
          (.eval inner code.body m₁) ∧
        m₁.counters = m.counters.map (.application (m.stack.depth + 1)) ∧
        ((cx.apply p code env args site).after m = m₁.leave ∨
          m₁.stack.room (p - 1) < m.stack.room p ∧ (cx.apply p code env args site).after m =
            ((cx.eval (p - 1) inner code.body).after m₁).leave) := by
  by_cases hcount : code.arity = args.length
  · rcases m.admits_or_full with ha | ⟨limit, hl, hfull⟩
    · obtain ⟨inner, w, hw⟩ :=
        Eval.bodyEnv_apply code env args (m.entered ⟨code.name?, site.span⟩)
      refine .inr ⟨inner, _, .body hcount ha hw, rfl, ?_⟩
      rcases Nat.eq_zero_or_pos (m.stack.room p) with hzero | hroom
      · have happly : cx.apply p code env args site m = Eval.body cx.names
            (fun _ _ => throw .exhausted) code env args (m.entered ⟨code.name?, site.span⟩) := by
          unfold apply
          rw [hzero]
          simp only [callWithin]
          exact cx.callWith_entered _ env site hcount ha
        rw [Eval.after_congr happly, Eval.body, Eval.leaving_after, Eval.bind_after_of_ok hw]
        exact .inl rfl
      · have hlt : (m.stack.add ⟨code.name?, site.span⟩).room (p - 1) < m.stack.room p := by
          have hadd := @CallStack.room_add m.stack ⟨code.name?, site.span⟩ p
            (m.stack.room p - 1) (by omega)
          omega
        rw [Eval.after_congr (cx.apply_entered p env site hcount ha hroom), Eval.body,
          Eval.leaving_after, Eval.bind_after_of_ok hw]
        exact .inr ⟨hlt, rfl⟩
    · exact .inl (Eval.after_of_error (cx.apply_full p env site hcount hl hfull))
  · exact .inl (Eval.after_of_error (cx.apply_wrongCount p env site hcount))

variable (cx)

/-- Why the evaluation of a term stopped: the term detects a fault, a part of it stops, or a call
that it makes stops after it was entered. -/
inductive StopOrigin (p : Nat) (env : Env) (t : Term) (m : Machine) (e : Stop) (m' : Machine) :
    Prop
  | detected {raw : Fault} (detects : cx.Detects env t m raw)
      (raised : e = .fault (raw.withSite (.ofTerm t)))
  | part {inner u m₁} (step : cx.Calls (.eval env t m) [] (.eval inner u m₁))
      (stops : cx.eval p inner u m₁ = .error e m')
  | call {code closed values m₁}
      (step : cx.Calls (.eval env t m) [] (.apply code closed values (.ofTerm t) m₁))
      (count : code.arity = values.length) (admits : m₁.Admits)
      (stops : cx.apply p code closed values (.ofTerm t) m₁ = .error e m')

variable {cx}

/-- **Every stop has an origin.** -/
theorem eval_stop {t : Term} (h : cx.eval p env t m = .error e m') :
    cx.StopOrigin p env t m e m' := by
  cases t with
  | literal span l => cases h
  | lambda span id header body => cases h
  | var span x =>
    rw [eval_var, Eval.count_bind] at h
    cases hx : env.lookup x with
    | some v => rw [hx] at h; cases h
    | none =>
      rw [hx] at h
      cases h
      exact .detected (.unbound hx) rfl
  | app span func args =>
    rw [eval_app, Eval.count_bind] at h
    rcases Eval.bind_eq_error h with hfunc | ⟨v, m₁, hfunc, hnext⟩
    · exact .part .func hfunc
    by_cases hv : ∃ code closed, v = .closure code closed
    · obtain ⟨code, closed, rfl⟩ := hv
      rcases Eval.bind_eq_error hnext with hargs | ⟨values, m₂, hargs, hcall⟩
      · obtain ⟨u, m₂, hturn, hu⟩ := evalAll_stop hargs
        exact .part (.argument ⟨p, hfunc⟩ hturn) hu
      · by_cases hcount : code.arity = values.length
        · rcases m₂.admits_or_full with ha | ⟨limit, hl, hfull⟩
          · exact .call (.call ⟨p, hfunc⟩ ⟨p, hargs⟩) hcount ha hcall
          · rw [cx.apply_full p closed _ hcount hl hfull] at hcall
            cases hcall
            exact .detected (.refused ⟨p, hfunc⟩ ⟨p, hargs⟩ (.depth hcount hl hfull)) rfl
        · rw [cx.apply_wrongCount p closed _ hcount] at hcall
          cases hcall
          exact .detected (.refused ⟨p, hfunc⟩ ⟨p, hargs⟩ (.count hcount)) rfl
    · have hother : ∀ code closed, v ≠ .closure code closed :=
        fun code closed heq => hv ⟨code, closed, heq⟩
      cases v with
      | closure code closed => exact absurd rfl (hother code closed)
      | _ =>
        cases hnext
        exact .detected (.notFunction ⟨p, hfunc⟩ hother) rfl
  | letIn span x value body =>
    rw [eval_letIn, Eval.count_bind] at h
    rcases Eval.bind_eq_error h with hvalue | ⟨v, m₁, hvalue, hbody⟩
    · exact .part .letValue hvalue
    · rw [Eval.bind_of_ok (Eval.bindNames_apply ..)] at hbody
      exact .part (.letBody ⟨p, hvalue⟩) hbody
  | letRec span id functions body =>
    rw [eval_letRec, Eval.count_bind, Eval.bind_of_ok (Eval.stamp_apply _)] at h
    exact .part .letRecBody h
  | ifThenElse span cond thenBranch elseBranch =>
    rw [eval_ifThenElse, Eval.count_bind] at h
    rcases Eval.bind_eq_error h with hcond | ⟨v, m₁, hcond, hbranch⟩
    · exact .part .condition hcond
    by_cases hv : ∃ b, v = .bool b
    · obtain ⟨b, rfl⟩ := hv
      exact .part (.branch ⟨p, hcond⟩) hbranch
    · have hother : ∀ b, v ≠ .bool b := fun b heq => hv ⟨b, heq⟩
      cases v with
      | bool b => exact absurd rfl (hother b)
      | _ =>
        cases hbranch
        exact .detected (.notBoolean ⟨p, hcond⟩ hother) rfl
  | caseOf span scrutinee alternatives =>
    rw [eval_caseOf, Eval.count_bind] at h
    rcases Eval.bind_eq_error h with hvalue | ⟨v, m₁, hvalue, hcase⟩
    · exact .part .scrutinee hvalue
    rw [Eval.count_bind] at hcase
    cases hchoice : Term.choose v alternatives with
    | some chosen =>
      obtain ⟨bindings, body⟩ := chosen
      rw [hchoice] at hcase
      exact .part (.alternative ⟨p, hvalue⟩ hchoice) hcase
    | none =>
      rw [hchoice] at hcase
      cases hcase
      exact .detected (.noMatch ⟨p, hvalue⟩ hchoice) rfl
  | record span fields =>
    rw [eval_record, Eval.count_bind] at h
    rcases Eval.bind_eq_error h with hfields | ⟨values, m₁, hfields, hrest⟩
    · obtain ⟨u, m₁, hturn, hu⟩ := evalAll_stop hfields
      exact .part (.fieldValue hturn) hu
    · cases hrest
  | field span base x =>
    rw [eval_field, Eval.count_bind] at h
    rcases Eval.bind_eq_error h with hbase | ⟨v, m₁, hbase, hnext⟩
    · exact .part .base hbase
    cases v with
    | record s fields =>
      cases hfield : Value.field? x fields with
      | some v =>
        simp only [hfield] at hnext
        cases hnext
      | none =>
        simp only [hfield] at hnext
        cases hnext
        exact .detected (.missingField ⟨p, hbase⟩ hfield) rfl
    | unit =>
      cases hnext
      exact .detected (.missingFieldOfUnit ⟨p, hbase⟩) rfl
    | _ =>
      cases hnext
      exact .detected (.notRecord ⟨p, hbase⟩ nofun nofun) rfl
  | variant span tag payload =>
    rw [eval_variant, Eval.count_bind] at h
    rcases Eval.bind_eq_error h with hpayload | ⟨v, m₁, hpayload, hrest⟩
    · exact .part .payload hpayload
    · cases hrest
  | prim span op args =>
    rw [eval_prim, Eval.count_bind] at h
    rcases Eval.bind_eq_error h with hargs | ⟨values, m₁, hargs, hop⟩
    · obtain ⟨u, m₁, hturn, hu⟩ := evalAll_stop hargs
      exact .part (.operand hturn) hu
    rw [Eval.count_bind] at hop
    cases happly : op.apply cx values (m₁.counted .primitive).world with
    | mk r w =>
      cases r with
      | ok v =>
        rw [Eval.operate_of_ok happly] at hop
        cases hop
      | error raw =>
        rw [Eval.operate_of_error happly] at hop
        cases hop
        have happlies := op.apply_applies cx values (m₁.counted .primitive).world
        rw [happly] at happlies
        cases happlies with
        | fault plain => exact .detected (.operator ⟨p, hargs⟩ happly plain) rfl
        | host answers => exact .detected (.host ⟨p, hargs⟩ answers) rfl

end Context
end CapLang
