import CapLang.Proofs.Stops

/-!
# Where a value comes from

A term that has a value has it because certain parts have values, and perhaps because a call gave
one.  `Context.Yields` has one clause for each form of term, which names the values of all parts and
the machines between them, and `eval_value` is the inversion of an evaluation that gives a value, as
`eval_stop` is that of one that stops.
-/
namespace CapLang

namespace Context

variable (cx : Context)

/-- **How a term comes to a value**, by evaluations with the same patience, and with one less in
the body of a call. -/
inductive Yields (p : Nat) (env : Env) : Term → Machine → Value → Machine → Prop
  | literal {span l m} : Yields p env (.literal span l) m (.ofLiteral l) (m.counted .term)
  | bound {span x m v} (found : env.lookup x = some v) :
      Yields p env (.var span x) m v (m.counted .term)
  | lambda {span id header body m} : Yields p env (.lambda span id header body) m
      (.closure (.lambda id header body) env) (m.counted .term)
  /-- What the body of the called function gives; the call is left after it. -/
  | app {span func args m code closed m₁ values m₂ inner m₃ v m₄}
      (callee : cx.eval p env func (m.counted .term) = .ok (.closure code closed) m₁)
      (arguments : cx.evalAll p env args m₁ = .ok values m₂)
      (enters : cx.Calls (.apply code closed values (.ofTerm (.app span func args)) m₂)
        [⟨code.name?, span⟩] (.eval inner code.body m₃))
      (room : m₃.stack.room (p - 1) < m₂.stack.room p)
      (result : cx.eval (p - 1) inner code.body m₃ = .ok v m₄) :
      Yields p env (.app span func args) m v m₄.leave
  | letIn {span x value body m u m₁ v m'}
      (bound : cx.eval p env value (m.counted .term) = .ok u m₁)
      (result : cx.eval p (env.extendMany m₁.world.stamp.1 [(x, u)]) body m₁.stamped = .ok v m') :
      Yields p env (.letIn span x value body) m v m'
  | letRec {span id functions body m v m'}
      (result : cx.eval p (env.bindGroup m.world.stamp.1 id functions) body
        (m.counted .term).stamped = .ok v m') :
      Yields p env (.letRec span id functions body) m v m'
  | ifThenElse {span cond thenBranch elseBranch m b m₁ v m'}
      (condition : cx.eval p env cond (m.counted .term) = .ok (.bool b) m₁)
      (result : cx.eval p env (if b then thenBranch else elseBranch) m₁ = .ok v m') :
      Yields p env (.ifThenElse span cond thenBranch elseBranch) m v m'
  | caseOf {span scrutinee alternatives m u m₁ bindings body v m'}
      (value : cx.eval p env scrutinee (m.counted .term) = .ok u m₁)
      (chosen : Term.choose u alternatives = some (bindings, body))
      (result : cx.eval p (env.extendMany m₁.world.stamp.1 bindings) body
        (m₁.counted .case).stamped = .ok v m') :
      Yields p env (.caseOf span scrutinee alternatives) m v m'
  | record {span fields m values m₁}
      (given : cx.evalAll p env (fields.map (·.2)) (m.counted .term) = .ok values m₁) :
      Yields p env (.record span fields) m
        (.ofFields m₁.world.stamp.1 ((fields.map (·.1)).zip values)) m₁.stamped
  | field {span base x m stamp fields m' v}
      (record : cx.eval p env base (m.counted .term) = .ok (.record stamp fields) m')
      (found : Value.field? x fields = some v) : Yields p env (.field span base x) m v m'
  | variant {span tag payload m v m'}
      (given : cx.eval p env payload (m.counted .term) = .ok v m') :
      Yields p env (.variant span tag payload) m (.variant tag v) m'
  | operator {span op args m values m₁ v w}
      (operands : cx.evalAll p env args (m.counted .term) = .ok values m₁)
      (applies : op.apply cx values m₁.world = (.ok v, w)) :
      Yields p env (.prim span op args) m v { m₁.counted .primitive with world := w }

variable {cx} {p : Nat} {env : Env} {m m' : Machine}

/-- **A call gives a value** only once it is entered, and then that of its body. -/
theorem apply_value {code : Code} {args : List Value} {site : Site} {v : Value}
    (h : cx.apply p code env args site m = .ok v m') :
    ∃ inner m₁ m₂, cx.Calls (.apply code env args site m) [⟨code.name?, site.span⟩]
        (.eval inner code.body m₁) ∧
      m₁.stack.room (p - 1) < m.stack.room p ∧
      cx.eval (p - 1) inner code.body m₁ = .ok v m₂ ∧ m' = m₂.leave := by
  by_cases hcount : code.arity = args.length
  · rcases m.admits_or_full with ha | ⟨limit, hl, hfull⟩
    · rcases Nat.eq_zero_or_pos (m.stack.room p) with hzero | hroom
      · obtain ⟨-, m₁, hex⟩ := cx.apply_exhausted p env site hcount ha hzero
        rw [hex] at h
        cases h
      · obtain ⟨inner, m₁, hstep, hlt, happly⟩ := cx.apply_enters env site hcount ha hroom
        rw [happly] at h
        cases hbody : cx.eval (p - 1) inner code.body m₁ with
        | ok u m₂ =>
          rw [Eval.leaving_of_ok hbody] at h
          cases h
          exact ⟨inner, m₁, m₂, hstep, hlt, hbody, rfl⟩
        | error e m₂ =>
          rw [Eval.leaving_of_error hbody] at h
          cases h
    · rw [cx.apply_full p env site hcount hl hfull] at h
      cases h
  · rw [cx.apply_wrongCount p env site hcount] at h
    cases h

/-- **Every value has an origin.** -/
theorem eval_value {t : Term} {v : Value} (h : cx.eval p env t m = .ok v m') :
    cx.Yields p env t m v m' := by
  cases t with
  | literal span l =>
    cases h
    exact .literal
  | lambda span id header body =>
    cases h
    exact .lambda
  | var span x =>
    rw [eval_var, Eval.count_bind] at h
    cases hx : env.lookup x with
    | some u =>
      rw [hx] at h
      cases h
      exact .bound hx
    | none =>
      rw [hx] at h
      cases h
  | app span func args =>
    rw [eval_app, Eval.count_bind] at h
    obtain ⟨f, m₁, hfunc, hnext⟩ := Eval.bind_eq_ok h
    cases f with
    | closure code closed =>
      obtain ⟨values, m₂, hargs, hcall⟩ := Eval.bind_eq_ok hnext
      obtain ⟨inner, m₃, m₄, hstep, hlt, hbody, rfl⟩ := apply_value hcall
      exact .app hfunc hargs hstep hlt hbody
    | _ => cases hnext
  | letIn span x value body =>
    rw [eval_letIn, Eval.count_bind] at h
    obtain ⟨u, m₁, hvalue, hbody⟩ := Eval.bind_eq_ok h
    rw [Eval.bind_of_ok (Eval.bindNames_apply ..)] at hbody
    exact .letIn hvalue hbody
  | letRec span id functions body =>
    rw [eval_letRec, Eval.count_bind, Eval.bind_of_ok (Eval.stamp_apply _)] at h
    exact .letRec h
  | ifThenElse span cond thenBranch elseBranch =>
    rw [eval_ifThenElse, Eval.count_bind] at h
    obtain ⟨c, m₁, hcond, hbranch⟩ := Eval.bind_eq_ok h
    cases c with
    | bool b => exact .ifThenElse hcond hbranch
    | _ => cases hbranch
  | caseOf span scrutinee alternatives =>
    rw [eval_caseOf, Eval.count_bind] at h
    obtain ⟨u, m₁, hvalue, hcase⟩ := Eval.bind_eq_ok h
    rw [Eval.count_bind] at hcase
    cases hchoice : Term.choose u alternatives with
    | some chosen =>
      obtain ⟨bindings, body⟩ := chosen
      rw [hchoice] at hcase
      exact .caseOf hvalue hchoice hcase
    | none =>
      rw [hchoice] at hcase
      cases hcase
  | record span fields =>
    rw [eval_record, Eval.count_bind] at h
    obtain ⟨values, m₁, hfields, hrest⟩ := Eval.bind_eq_ok h
    cases hrest
    exact .record hfields
  | field span base x =>
    rw [eval_field, Eval.count_bind] at h
    obtain ⟨r, m₁, hbase, hnext⟩ := Eval.bind_eq_ok h
    cases r with
    | record stamp fields =>
      cases hfield : Value.field? x fields with
      | some u =>
        simp only [hfield] at hnext
        cases hnext
        exact .field hbase hfield
      | none =>
        simp only [hfield] at hnext
        cases hnext
    | _ => cases hnext
  | variant span tag payload =>
    rw [eval_variant, Eval.count_bind] at h
    obtain ⟨u, m₁, hpayload, hrest⟩ := Eval.bind_eq_ok h
    cases hrest
    exact .variant hpayload
  | prim span op args =>
    rw [eval_prim, Eval.count_bind] at h
    obtain ⟨values, m₁, hargs, hop⟩ := Eval.bind_eq_ok h
    rw [Eval.count_bind] at hop
    cases happly : op.apply cx values (m₁.counted .primitive).world with
    | mk r w =>
      cases r with
      | ok u =>
        rw [Eval.operate_of_ok happly] at hop
        cases hop
        exact .operator hargs happly
      | error f =>
        rw [Eval.operate_of_error happly] at hop
        cases hop

/-- Terms have values in turn: if of each that the turn comes to what is given is `good`, so is
all that is given. -/
theorem evalAll_value {good : Value → Prop} {holds : World → Prop} {ts : List Term}
    {vs : List Value} (h : cx.evalAll p env ts m = .ok vs m') (hm : holds m.world)
    (hturn : ∀ {u m₁ v m₂}, cx.Turn env ts m u m₁ → holds m₁.world →
      cx.eval p env u m₁ = .ok v m₂ → good v ∧ holds m₂.world) :
    vs.length = ts.length ∧ (∀ v ∈ vs, good v) ∧ holds m'.world := by
  induction ts generalizing m vs with
  | nil =>
    cases h
    exact ⟨rfl, nofun, hm⟩
  | cons t ts ih =>
    rw [evalAll_cons] at h
    obtain ⟨v, m₁, hv, hrest⟩ := Eval.bind_eq_ok h
    obtain ⟨vs', m₂, hvs, hpure⟩ := Eval.bind_eq_ok hrest
    cases hpure
    obtain ⟨hgood, hm₁⟩ := hturn .now hm hv
    obtain ⟨hlength, hall, hm₂⟩ := ih hvs hm₁ fun turn => hturn (.later ⟨p, hv⟩ turn)
    exact ⟨congrArg (· + 1) hlength, List.forall_mem_cons.mpr ⟨hgood, hall⟩, hm₂⟩

end Context
end CapLang
