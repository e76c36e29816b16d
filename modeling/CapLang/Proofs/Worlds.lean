import CapLang.Proofs.Stops
import CapLang.Proofs.Hosts

/-!
# What holds of the world throughout

A property of the world that stamps and operators keep is kept by evaluation, whatever it comes to
(`eval_keeps`), and so it holds of the world of every job within a job (`Within.keeps`).  That no
host object raises faults of a class is such a property (`neverRaises_kept`).
-/
namespace CapLang

/-- A property of the world that single steps keep. -/
structure Kept (cx : Context) (W : World → Prop) : Prop where
  stamp : ∀ w, W w → W w.stamp.2
  operator : ∀ (op : Operator) args w, W w → W (op.apply cx args w).2

theorem neverRaises_kept {cx : Context} (hi : cx.invoke = World.invoke) (c : FaultClass) :
    Kept cx fun w => w.NeverRaises c where
  stamp _ hw := hw
  operator op args _ hw := op.apply_neverRaises args hi hw

/-- The step keeps a property of the world. -/
def Eval.Keeps {α : Type} (W : World → Prop) (x : Eval α) : Prop :=
  ∀ m : Machine, W m.world → W (x.after m).world

section Kept

variable {cx : Context} {W : World → Prop} (hk : Kept cx W)
include hk

theorem Kept.passage : Passage cx fun m m' => W m.world → W m'.world where
  refl _ hw := hw
  trans h₁ h₂ hw := h₂ (h₁ hw)
  term _ hw := hw
  case _ hw := hw
  primitive _ hw := hw
  stamp _ hw := hk.stamp _ hw
  operate op args m hw := hk.operator op args m.world hw
  call _ h hw := h hw

namespace Context

/-- **Evaluation keeps what single steps keep.** -/
theorem eval_keeps (p : Nat) (env : Env) (t : Term) : (cx.eval p env t).Keeps W := fun m =>
  hk.passage.evalWith (m.stack.room p) 0 env t m

theorem evalAll_keeps (p : Nat) (env : Env) (ts : List Term) : (cx.evalAll p env ts).Keeps W :=
  fun m => hk.passage.evalAll (m.stack.room p) 0 env ts m

variable {env : Env} {t u : Term} {ts : List Term} {m m' : Machine}

theorem Gives.keeps {v : Value} (h : cx.Gives env t m v m') (hw : W m.world) : W m'.world := by
  obtain ⟨p, hp⟩ := h
  rw [← Eval.after_of_ok hp]
  exact eval_keeps hk p env t m hw

theorem GivesAll.keeps {vs : List Value} (h : cx.GivesAll env ts m vs m') (hw : W m.world) :
    W m'.world := by
  obtain ⟨p, hp⟩ := h
  rw [← Eval.after_of_ok hp]
  exact evalAll_keeps hk p env ts m hw

theorem Turn.keeps (h : cx.Turn env ts m u m') (hw : W m.world) : W m'.world := by
  induction h with
  | now => exact hw
  | later value rest ih => exact ih (value.keeps hk hw)

theorem Calls.keeps {j k : Job} {new : List Call} (h : cx.Calls j new k)
    (hw : W j.machine.world) : W k.machine.world := by
  cases h with
  | argument callee turn => exact turn.keeps hk (callee.keeps hk hw)
  | call callee arguments => exact arguments.keeps hk (callee.keeps hk hw)
  | @body code env args site m inner m₁ count admits bound =>
    have hbody := hk.passage.congruence.bodyEnv code env args
      (m.entered ⟨code.name?, site.span⟩) hw
    rw [Eval.after_of_ok bound] at hbody
    exact hbody
  | letBody bound => exact hk.stamp _ (bound.keeps hk hw)
  | letRecBody => exact hk.stamp _ hw
  | branch condition => exact condition.keeps hk hw
  | alternative value chosen => exact hk.stamp _ (value.keeps hk hw)
  | fieldValue turn => exact turn.keeps hk hw
  | operand turn => exact turn.keeps hk hw
  | _ => exact hw

/-- **What single steps keep holds throughout.** -/
theorem Within.keeps {j k : Job} {active : List Call} (h : cx.Within j active k)
    (hw : W j.machine.world) : W k.machine.world := by
  induction h with
  | refl => exact hw
  | head step rest ih => exact ih (step.keeps hk hw)

end Context
end Kept
end CapLang
