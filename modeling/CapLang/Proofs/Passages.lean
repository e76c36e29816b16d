import CapLang.Proofs.Congruence

/-!
# What evaluation does to the machine

Some relations between machines hold of the machine that a step finds and the one that it leaves,
whatever the step comes to: that the stack is the same, that the records have only grown, that
something still holds of the world.  Such a relation holds of evaluation (`Passage.evalWith`) if it
is reflexive and transitive, if single steps keep to it, and if it is kept when a call is entered
before and left afterwards.
-/
namespace CapLang

/-- **A relation that evaluation keeps to** between the machine that it finds and the one that it
leaves. -/
structure Passage (cx : Context) (R : Machine → Machine → Prop) : Prop where
  refl : ∀ m, R m m
  trans : ∀ {m₁ m₂ m₃}, R m₁ m₂ → R m₂ m₃ → R m₁ m₃
  term : ∀ m, R m (m.counted .term)
  case : ∀ m, R m (m.counted .case)
  primitive : ∀ m, R m (m.counted .primitive)
  stamp : ∀ m, R m m.stamped
  operate : ∀ (op : Operator) args m, R m { m with world := (op.apply cx args m.world).2 }
  /-- The body of a call begins with the call on the stack, and the call is left after it. -/
  call : ∀ {m m' : Machine} (c : Call), R (m.entered c) m' → R m m'.leave

namespace Eval

variable {α : Type}

/-- Whatever the step comes to, the relation holds of the machine it finds and the one it leaves. -/
def Passes (R : Machine → Machine → Prop) (x : Eval α) : Prop := ∀ m, R m (x.after m)

/-- An operator changes nothing but the world. -/
theorem operate_after (cx : Context) (op : Operator) (args : List Value) (site : Site)
    (m : Machine) : (Eval.operate cx op args site).after m =
      { m with world := (op.apply cx args m.world).2 } := by
  cases h : op.apply cx args m.world with
  | mk r w =>
    cases r with
    | ok v => rw [after_of_ok (operate_of_ok h site)]
    | error f => rw [after_of_error (operate_of_error h site)]

end Eval

namespace Passage

variable {α β : Type} {cx : Context} {R : Machine → Machine → Prop} (h : Passage cx R)
include h

theorem bind {x : Eval α} {f : α → Eval β} (hx : x.Passes R) (hf : ∀ a, (f a).Passes R) :
    (x >>= f).Passes R := by
  intro m
  have hfirst := hx m
  cases hxm : x m with
  | ok a m₁ =>
    rw [Eval.after_of_ok hxm] at hfirst
    rw [Eval.bind_after_of_ok hxm]
    exact h.trans hfirst (hf a m₁)
  | error e m₁ =>
    rw [Eval.bind_after_of_error hxm]
    exact hfirst

theorem congruence : Congruence cx fun _ x _ => x.Passes R where
  pure _ m := h.refl m
  bind := h.bind
  fault _ _ _ m := h.refl m
  term := h.term
  case := h.case
  primitive := h.primitive
  stamp := h.stamp
  operate op args site m := by
    rw [Eval.operate_after]
    exact h.operate op args m

/-- To bind the names of a call and to run its body. -/
theorem body {run : Env → Term → Eval Value} (hrun : ∀ env t, (run env t).Passes R) (code : Code)
    (env : Env) (args : List Value) :
    (Eval.bodyEnv code env args >>= fun inner => run inner code.body).Passes R :=
  h.bind (h.congruence.bodyEnv code env args) fun inner => hrun inner _

/-- A call that is refused leaves the machine alone; one that is entered does what its body does. -/
theorem callWith {run : Env → Term → Eval Value} (hrun : ∀ env t, (run env t).Passes R)
    (code : Code) (env : Env) (args : List Value) (site : Site) :
    (cx.callWith run code env args site).Passes R := by
  intro m
  by_cases hcount : code.arity = args.length
  · rcases m.admits_or_full with hadmits | ⟨limit, hl, hfull⟩
    · have hbody := h.body hrun code env args
      rw [Eval.after_congr (cx.callWith_entered run env site hcount hadmits), Eval.body,
        Eval.leaving_after]
      exact h.call _ (hbody _)
    · rw [Eval.after_of_error (cx.callWith_full run env site hcount hl hfull)]
      exact h.refl m
  · rw [cx.callWith_wrongCount run env site hcount]
    exact h.refl m

theorem callWithin (room level : Nat) (code : Code) (env : Env) (args : List Value)
    (site : Site) : (cx.callWithin room level code env args site).Passes R := by
  -- The induction is on the room for nested calls; within a body it is terms that get smaller.
  induction room generalizing level code env args site with
  | zero =>
    simp only [Context.callWithin]
    refine h.callWith (fun env t => ?_) code env args site
    exact h.refl
  | succ room ih =>
    simp only [Context.callWithin]
    refine h.callWith (fun env t => ?_) code env args site
    exact h.congruence.evalWith_of_calls ih (level + 1) env t

/-- **Evaluation keeps to the relation.** -/
theorem evalWith (room level : Nat) (env : Env) (t : Term) :
    (t.evalWith cx (cx.callWithin room) level env).Passes R :=
  h.congruence.evalWith_of_calls (h.callWithin room) level env t

theorem evalAll (room level : Nat) (env : Env) (ts : List Term) :
    (Term.evalAll cx (cx.callWithin room) level env ts).Passes R :=
  h.congruence.evalAll_of_calls (h.callWithin room) level env ts

end Passage
end CapLang
