import CapLang.Proofs.Invariants
import CapLang.Proofs.Passages

/-!
# The world after a job

Where an invariant follows the jobs (`Tracking`), it also says what holds of the world that a job
leaves, whether it comes to a value, to a fault or to no end (`Tracking.eval_leaves`).  A job stops
in one of its parts or at a step of its own, and neither takes back what the invariant says of the
world: a part that stops is tracked like one that goes on.
-/
namespace CapLang

namespace Eval

variable {α β : Type} {holds : World → Prop} {m : Machine}

/-- Whatever the step comes to, this holds of the world that it leaves. -/
def Leaves (holds : World → Prop) (x : Eval α) (m : Machine) : Prop := holds (x.after m).world

theorem Leaves.of_ok {x : Eval α} {m' : Machine} {a : α} (hx : x.Leaves holds m)
    (h : x m = .ok a m') : holds m'.world := by
  rwa [Leaves, after_of_ok h] at hx

theorem Leaves.bind {x : Eval α} {f : α → Eval β} (hx : x.Leaves holds m)
    (hf : ∀ a m₁, x m = .ok a m₁ → holds m₁.world → (f a).Leaves holds m₁) :
    (x >>= f).Leaves holds m := by
  unfold Leaves
  cases h : x m with
  | ok a m₁ =>
    rw [bind_after_of_ok h]
    exact hf a m₁ h (hx.of_ok h)
  | error e m₁ =>
    rw [bind_after_of_error h]
    exact hx

end Eval

namespace Tracking

variable {cx : Context} {good : Value → Prop} {reached : Job → Prop} {holds : World → Prop}
  (tr : Tracking cx good reached holds) {p : Nat} {env : Env} {m : Machine}
include tr

/-- A call leaves the world that it finds or that its body leaves. -/
theorem apply_leaves {code : Code} {args : List Value} {site : Site}
    (hj : (Job.apply code env args site m).Tracked good reached holds)
    (hbody : ∀ {inner m₁}, cx.Calls (.apply code env args site m) [⟨code.name?, site.span⟩]
      (.eval inner code.body m₁) → m₁.stack.room (p - 1) < m.stack.room p →
        (cx.eval (p - 1) inner code.body).Leaves holds m₁) :
    (cx.apply p code env args site).Leaves holds m := by
  unfold Eval.Leaves
  rcases cx.apply_after p code env args site m with hsame | ⟨inner, m₁, enters, -, hend⟩
  · rw [hsame]
    exact hj.world
  · rcases hend with hleft | ⟨hroom, hleft⟩
    · rw [hleft]
      exact (tr.calls enters hj).world
    · rw [hleft]
      exact hbody enters hroom

omit tr in
theorem evalAll_leaves {ts : List Term} (hm : holds m.world)
    (hturn : ∀ {u m₁}, cx.Turn env ts m u m₁ → (cx.eval p env u).Leaves holds m₁) :
    (cx.evalAll p env ts).Leaves holds m := by
  induction ts generalizing m with
  | nil => exact hm
  | cons t ts ih =>
    rw [Context.evalAll_cons]
    refine (hturn .now).bind fun v m₁ hv hm₁ => ?_
    refine (ih hm₁ fun turn => hturn (.later ⟨p, hv⟩ turn)).bind fun vs m₂ _ hm₂ => ?_
    exact hm₂

/-- **Whatever a tracked evaluation comes to**, the invariant holds of the world that it leaves. -/
theorem eval_leaves (p : Nat) (env : Env) (t : Term) (m : Machine)
    (hj : (Job.eval env t m).Tracked good reached holds) : (cx.eval p env t).Leaves holds m := by
  induction p, env, t, m using Context.eval_induction with
  | step p env t m ih =>
    -- Parts are tracked as the term is, and they are smaller.
    have part : ∀ {inner u m₁}, cx.Calls (.eval env t m) [] (.eval inner u m₁) →
        (cx.eval p inner u).Leaves holds m₁ := by
      intro inner u m₁ step
      obtain ⟨hstack, hsize⟩ := step.stays
      have hroom : m₁.stack.room p = m.stack.room p := congrArg (·.room p) hstack
      exact ih p inner u m₁ (.inr ⟨hroom, hsize⟩) (tr.calls step hj)
    have hm : holds (m.counted .term).world := hj.world
    unfold Eval.Leaves
    cases t with
    | literal span l =>
      rw [Context.eval_literal]
      exact hm
    | var span x =>
      rw [Context.eval_var]
      cases env.lookup x with
      | some v => exact hm
      | none => exact hm
    | lambda span id header body =>
      rw [Context.eval_lambda]
      exact hm
    | app span func args =>
      rw [Context.eval_app]
      refine (part .func).bind fun v m₁ hfunc hm₁ => ?_
      cases v with
      | closure code closed =>
        refine (evalAll_leaves hm₁ fun turn => part (.argument ⟨p, hfunc⟩ turn)).bind
          fun values m₂ hvalues _ => ?_
        have hcall : cx.Calls (.eval env (.app span func args) m) []
            (.apply code closed values (.ofTerm (.app span func args)) m₂) :=
          .call ⟨p, hfunc⟩ ⟨p, hvalues⟩
        have happly := tr.calls hcall hj
        have hstack : m₂.stack = m.stack := hcall.stays.1
        refine tr.apply_leaves happly fun {inner m₃} enters hroom => ?_
        rw [hstack] at hroom
        exact ih (p - 1) inner code.body m₃ (.inl hroom) (tr.calls enters happly)
      | _ => exact hm₁
    | letIn span x value body =>
      rw [Context.eval_letIn]
      refine (part .letValue).bind fun v m₁ hvalue hm₁ => ?_
      exact part (.letBody ⟨p, hvalue⟩)
    | letRec span id functions body =>
      rw [Context.eval_letRec]
      exact part .letRecBody
    | ifThenElse span cond thenBranch elseBranch =>
      rw [Context.eval_ifThenElse]
      refine (part .condition).bind fun v m₁ hcond hm₁ => ?_
      cases v with
      | bool b => exact part (.branch ⟨p, hcond⟩)
      | _ => exact hm₁
    | caseOf span scrutinee alternatives =>
      rw [Context.eval_caseOf]
      refine (part .scrutinee).bind fun v m₁ hvalue hm₁ => ?_
      unfold Eval.Leaves
      cases hchosen : Term.choose v alternatives with
      | some chosen => exact part (.alternative ⟨p, hvalue⟩ hchosen)
      | none => exact hm₁
    | record span fields =>
      rw [Context.eval_record]
      refine (evalAll_leaves hm fun turn => part (.fieldValue turn)).bind
        fun values m₁ _ hm₁ => ?_
      exact tr.stamp _ hm₁
    | field span base x =>
      rw [Context.eval_field]
      refine (part .base).bind fun v m₁ _ hm₁ => ?_
      cases v with
      | record stamp fields =>
        unfold Eval.Leaves
        cases hfield : Value.field? x fields with
        | some v =>
          simp only [hfield]
          exact hm₁
        | none =>
          simp only [hfield]
          exact hm₁
      | _ => exact hm₁
    | variant span tag payload =>
      rw [Context.eval_variant]
      exact (part .payload).bind fun v m₁ _ hm₁ => hm₁
    | prim span op args =>
      rw [Context.eval_prim]
      refine (evalAll_leaves hm fun turn => part (.operand turn)).bind
        fun values m₁ hvalues hm₁ => ?_
      -- The operands are good, so the operator keeps the invariant.
      have hgood := (tr.givesAll (fun turn => (tr.calls (.operand turn) hj).reached) hj.good hm
        ⟨p, hvalues⟩).1
      have happly := (tr.operator hj.reached hgood hm₁ rfl).1
      show holds ((Eval.operate cx op values _).after (m₁.counted .primitive)).world
      rw [Eval.operate_after]
      exact happly

/-- **The value of a call that is tracked is good in all its parts.** -/
theorem apply {code : Code} {args : List Value} {site : Site}
    (hj : (Job.apply code env args site m).Tracked good reached holds) {v : Value} {m' : Machine}
    (h : cx.apply p code env args site m = .ok v m') : v.All good := by
  obtain ⟨inner, m₁, m₂, enters, -, hbody, -⟩ := Context.apply_value h
  obtain ⟨hr, hg, hm⟩ := tr.calls enters hj
  exact (tr.eval (p - 1) inner code.body m₁ hr hg hm hbody).1

end Tracking
end CapLang
