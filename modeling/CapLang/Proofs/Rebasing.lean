import CapLang.Proofs.Counting
import CapLang.Proofs.Operators
import CapLang.Proofs.Provenance

/-!
# Evaluation on top of other calls

An evaluation begins on top of the calls that are under way.  It sees them in two places only: where
the limit is checked, and where a fault gets its backtrace.  So on top of other calls, at least as
many, it does the same until a call is refused for its depth, and a fault differs in nothing but the
calls that its backtrace lists beneath its own (`Context.evalWith_rebased`).
-/
namespace CapLang

/-- On the one machine calls `old` are under way beneath those of the evaluation, on the other calls
`new`.  Nothing else differs, apart from what is counted. -/
structure Machine.Rebased (old new : List Call) (limit? : Option Nat) (top : List Call)
    (m₁ m₂ : Machine) : Prop where
  old : m₁.stack.calls = top ++ old
  new : m₂.stack.calls = top ++ new
  limit₁ : m₁.stack.limit? = limit?
  limit₂ : m₂.stack.limit? = limit?
  world : m₁.world = m₂.world

/-- The fault is what a host object answered last, and the world is as it was left then. -/
def Context.RaisedLast (cx : Context) (f : Fault) (w : World) : Prop :=
  ∃ w₀ h method args raw site, cx.invoke w₀ h method args = (.error raw, w) ∧ f = raw.withSite site

/-- **Faults that differ in their backtraces only**, and there in the calls beneath those of the
evaluation.  A backtrace that a host object attached is kept. -/
inductive Fault.Rebased (cx : Context) (old new : List Call) (w : World) : Fault → Fault → Prop
  | traced {raw : Fault} (plain : raw.backtrace = none) (active : List Call) :
      Fault.Rebased cx old new w { raw with backtrace := traceOf cx.names active old }
        { raw with backtrace := traceOf cx.names active new }
  | host {f : Fault} (attached : f.backtrace.isSome) (raised : cx.RaisedLast f w) :
      Fault.Rebased cx old new w f f

/-- How two evaluations end of which the second is on top of other calls.  The second one may have
refused a call for its depth. -/
inductive EndsRebased (cx : Context) (old new : List Call) (limit? : Option Nat) (top : List Call)
    {α : Type} : EStateM.Result Stop Machine α → EStateM.Result Stop Machine α → Prop
  | ok (a : α) {m₁ m₂ : Machine} (machines : m₁.Rebased old new limit? top m₂) :
      EndsRebased cx old new limit? top (.ok a m₁) (.ok a m₂)
  | fault {f₁ f₂ : Fault} {m₁ m₂ : Machine}
      (faults : f₁.Rebased cx (top ++ old) (top ++ new) m₁.world f₂)
      (machines : m₁.Rebased old new limit? top m₂) :
      EndsRebased cx old new limit? top (.error (.fault f₁) m₁) (.error (.fault f₂) m₂)
  | exhausted {m₁ m₂ : Machine} (machines : m₁.Rebased old new limit? top m₂) :
      EndsRebased cx old new limit? top (.error .exhausted m₁) (.error .exhausted m₂)
  | overflow {r : EStateM.Result Stop Machine α} {f : Fault} {m₂ : Machine}
      (limited : limit?.isSome) (overflows : f.cause.faultClass = .stackOverflow) :
      EndsRebased cx old new limit? top r (.error (.fault f) m₂)

/-- **The second step does on top of `new` what the first one does on top of `old`.** -/
def Eval.Rebased (cx : Context) (old new : List Call) (limit? : Option Nat) {α : Type}
    (x y : Eval α) : Prop :=
  ∀ top m₁ m₂, Machine.Rebased old new limit? top m₁ m₂ →
    EndsRebased cx old new limit? top (x m₁) (y m₂)

variable {cx : Context} {old new top : List Call} {limit? : Option Nat} {m₁ m₂ : Machine}

/-! ## Machines -/

/-- The depth of a stack is the number of its calls. -/
theorem CallStack.ext_calls {s t : CallStack} (hcalls : s.calls = t.calls)
    (hlimit : s.limit? = t.limit?) : s = t := by
  cases s with
  | mk calls depth limit? hdepth =>
    cases t with
    | mk calls' depth' limit' hdepth' =>
      obtain rfl : calls = calls' := hcalls
      obtain rfl : limit? = limit' := hlimit
      obtain rfl : depth = depth' := hdepth.trans hdepth'.symm
      rfl

namespace Machine.Rebased

theorem counted (h : m₁.Rebased old new limit? top m₂) (f : Counters → Counters) :
    (m₁.counted f).Rebased old new limit? top (m₂.counted f) :=
  ⟨h.old, h.new, h.limit₁, h.limit₂, h.world⟩

theorem withWorld (h : m₁.Rebased old new limit? top m₂) {w₁ w₂ : World} (hw : w₁ = w₂) :
    Machine.Rebased old new limit? top { m₁ with world := w₁ } { m₂ with world := w₂ } :=
  ⟨h.old, h.new, h.limit₁, h.limit₂, hw⟩

theorem entered (h : m₁.Rebased old new limit? top m₂) (c : Call) :
    (m₁.entered c).Rebased old new limit? (c :: top) (m₂.entered c) :=
  ⟨congrArg (c :: ·) h.old, congrArg (c :: ·) h.new, h.limit₁, h.limit₂, h.world⟩

theorem leave {c : Call} (h : m₁.Rebased old new limit? (c :: top) m₂) :
    m₁.leave.Rebased old new limit? top m₂.leave :=
  ⟨congrArg List.tail h.old, congrArg List.tail h.new, h.limit₁, h.limit₂, h.world⟩

/-- A call that is admitted on top of more calls is admitted on top of fewer. -/
theorem admits (h : m₁.Rebased old new limit? top m₂) (hle : old.length ≤ new.length)
    (hadmits : m₂.Admits) : m₁.Admits := by
  intro limit hl
  have hlt := hadmits limit (by rw [h.limit₂, ← h.limit₁, hl])
  rw [m₂.stack.depth_eq, h.new, List.length_append] at hlt
  rw [m₁.stack.depth_eq, h.old, List.length_append]
  omega

/-- Once the second one has left a call, the two may have counted differently and nothing else. -/
theorem uncounted_leave {s : CallStack} {c : Call}
    (h : m₁.Rebased s.calls (c :: s.calls) s.limit? [] m₂) : m₁.uncounted = m₂.leave.uncounted := by
  have hstack : m₁.stack = m₂.leave.stack := by
    have htail : m₂.leave.stack.calls = m₂.stack.calls.tail := rfl
    refine CallStack.ext_calls ?_ (h.limit₁.trans h.limit₂.symm)
    rw [htail, h.old, h.new]
    rfl
  simp only [Machine.uncounted, hstack, h.world, Machine.leave_world]

end Machine.Rebased

/-! ## Faults -/

theorem Fault.Rebased.leaving {base₁ base₂ : List Call} {w : World} {f₁ f₂ : Fault} {c : Call}
    {s₁ s₂ : CallStack} (h : f₁.Rebased cx (c :: base₁) (c :: base₂) w f₂)
    (h₁ : s₁.calls = c :: base₁) (h₂ : s₂.calls = c :: base₂) :
    ∃ g₁ g₂, (Stop.fault f₁).leaving cx.names s₁ = .fault g₁ ∧
      (Stop.fault f₂).leaving cx.names s₂ = .fault g₂ ∧ g₁.Rebased cx base₁ base₂ w g₂ := by
  cases h with
  | traced plain active =>
    exact ⟨_, _, Fault.traced_leaving cx.names _ active base₁ c h₁,
      Fault.traced_leaving cx.names _ active base₂ c h₂, .traced plain (active ++ [c])⟩
  | host attached raised =>
    exact ⟨f₁, f₁, Fault.attached_leaving cx.names attached s₁,
      Fault.attached_leaving cx.names attached s₂, .host attached raised⟩

/-! ## Steps -/

namespace Eval

variable {α β : Type}

theorem Rebased.bind {x y : Eval α} {f g : α → Eval β} (hx : Rebased cx old new limit? x y)
    (hf : ∀ a, Rebased cx old new limit? (f a) (g a)) :
    Rebased cx old new limit? (x >>= f) (y >>= g) := by
  intro top m₁ m₂ hm
  have hend := hx top m₁ m₂ hm
  generalize h₁ : x m₁ = r₁ at hend
  generalize h₂ : y m₂ = r₂ at hend
  cases hend with
  | ok a machines =>
    rw [bind_of_ok h₁, bind_of_ok h₂]
    exact hf a top _ _ machines
  | fault faults machines =>
    rw [bind_of_error h₁, bind_of_error h₂]
    exact .fault faults machines
  | exhausted machines =>
    rw [bind_of_error h₁, bind_of_error h₂]
    exact .exhausted machines
  | overflow limited overflows =>
    rw [bind_of_error h₂]
    exact .overflow limited overflows

/-- A fault that has no backtrace yet is the same on top of other calls. -/
theorem rebased_fault {f : Fault} (hf : f.backtrace = none)
    (hm : m₁.Rebased old new limit? top m₂) :
    EndsRebased cx old new limit? top (.error (.fault f) m₁ : EStateM.Result Stop Machine α)
      (.error (.fault f) m₂) := by
  have hraw := @Fault.Rebased.traced cx (top ++ old) (top ++ new) m₁.world f hf []
  have hsame : { f with backtrace := none } = f := by rw [← hf]
  simp only [Fault.traceOf, ↓reduceIte, hsame] at hraw
  exact .fault hraw hm

/-- An operator finds the same world and does not look at the calls. -/
theorem operate_rebased (op : Operator) (args : List Value) (site : Site) :
    Rebased cx old new limit? (Eval.operate cx op args site) (Eval.operate cx op args site) := by
  intro top m₁ m₂ hm
  cases happ : op.apply cx args m₁.world with
  | mk r w =>
    have happ₂ : op.apply cx args m₂.world = (r, w) := by rw [← hm.world, happ]
    cases r with
    | ok v =>
      rw [operate_of_ok happ, operate_of_ok happ₂]
      exact .ok v (hm.withWorld rfl)
    | error f =>
      rw [operate_of_error happ, operate_of_error happ₂]
      have hw : Machine.Rebased old new limit? top { m₁ with world := w } { m₂ with world := w } :=
        hm.withWorld rfl
      cases hb : f.backtrace with
      | none => exact rebased_fault hb hw
      | some b =>
        -- Only host objects attach backtraces.
        have happlies := op.apply_applies cx args m₁.world
        rw [happ] at happlies
        cases happlies with
        | fault plain => cases hb
        | host answers =>
          refine .fault (.host ?_ ⟨_, _, _, _, f, site, answers, rfl⟩) hw
          exact Option.isSome_iff_exists.mpr ⟨b, hb⟩

end Eval

theorem rebased_congruence (cx : Context) (old new : List Call) (limit? : Option Nat) :
    Congruence cx fun _ => Eval.Rebased cx old new limit? where
  pure a _ _ _ hm := .ok a hm
  bind := Eval.Rebased.bind
  fault _ hb _ _ _ _ hm := Eval.rebased_fault hb hm
  term _ _ _ hm := .ok () (hm.counted _)
  case _ _ _ hm := .ok () (hm.counted _)
  primitive _ _ _ hm := .ok () (hm.counted _)
  stamp top m₁ m₂ hm := by
    rw [Eval.stamp_apply, Eval.stamp_apply, hm.world]
    exact .ok _ ⟨hm.old, hm.new, hm.limit₁, hm.limit₂, by simp only [Machine.stamped_world, hm.world]⟩
  operate := Eval.operate_rebased

/-- A call that both have entered is left by both. -/
theorem EndsRebased.leaving {α : Type} {x y : Eval α} {c : Call}
    (h : EndsRebased cx old new limit? (c :: top) (x m₁) (y m₂)) :
    EndsRebased cx old new limit? top (Eval.leaving cx.names x m₁)
      (Eval.leaving cx.names y m₂) := by
  generalize h₁ : x m₁ = r₁ at h
  generalize h₂ : y m₂ = r₂ at h
  cases h with
  | ok a machines =>
    rw [Eval.leaving_of_ok h₁, Eval.leaving_of_ok h₂]
    exact .ok a machines.leave
  | fault faults machines =>
    obtain ⟨g₁, g₂, hg₁, hg₂, hg⟩ := faults.leaving machines.old machines.new
    rw [Eval.leaving_of_error h₁, Eval.leaving_of_error h₂, hg₁, hg₂]
    exact .fault hg machines.leave
  | exhausted machines =>
    rw [Eval.leaving_of_exhausted h₁, Eval.leaving_of_exhausted h₂]
    exact .exhausted machines.leave
  | @overflow _ f _ limited overflows =>
    obtain ⟨g, hg, hcause⟩ := Stop.leaving_fault cx.names _ f
    rw [Eval.leaving_of_error h₂, hg]
    exact .overflow limited (by rw [hcause, overflows])

/-- Without a limit a body that is exhausted on top of other calls is exhausted anyway. -/
theorem EndsRebased.exhausted_of_leaving {α : Type} {r : EStateM.Result Stop Machine α}
    {y : Eval α} {m' : Machine} (h : EndsRebased cx old new limit? top r (y m₂)) (hl : limit? = none)
    (hleaving : Eval.leaving cx.names y m₂ = .error .exhausted m') :
    ∃ m₁, r = .error .exhausted m₁ := by
  generalize hr : y m₂ = r₂ at h
  cases h with
  | ok a machines =>
    rw [Eval.leaving_of_ok hr] at hleaving
    cases hleaving
  | fault faults machines =>
    rw [Eval.leaving_of_error hr] at hleaving
    cases hleaving
  | exhausted machines => exact ⟨_, rfl⟩
  | overflow limited overflows =>
    rw [hl] at limited
    cases limited

namespace Context

theorem callWith_rebased (hle : old.length ≤ new.length) {run₁ run₂ : Env → Term → Eval Value}
    (hrun : ∀ env t, Eval.Rebased cx old new limit? (run₁ env t) (run₂ env t))
    (code : Code) (env : Env) (args : List Value) (site : Site) :
    Eval.Rebased cx old new limit? (cx.callWith run₁ code env args site)
      (cx.callWith run₂ code env args site) := by
  intro top m₁ m₂ hm
  by_cases hcount : code.arity = args.length
  · rcases m₂.admits_or_full with hadmits | ⟨limit, hl, hfull⟩
    · rw [cx.callWith_entered run₁ env site hcount (hm.admits hle hadmits),
        cx.callWith_entered run₂ env site hcount hadmits]
      have hbody := ((rebased_congruence cx old new limit?).bodyEnv code env args).bind
        fun inner => hrun inner code.body
      exact (hbody _ _ _ (hm.entered _)).leaving
    · rw [cx.callWith_full run₂ env site hcount hl hfull]
      refine .overflow ?_ rfl
      rw [← hm.limit₂, hl]
      rfl
  · rw [cx.callWith_wrongCount run₁ env site hcount, cx.callWith_wrongCount run₂ env site hcount]
    exact Eval.rebased_fault rfl hm

theorem callWithin_rebased (hle : old.length ≤ new.length) (room l₁ l₂ : Nat) (code : Code)
    (env : Env) (args : List Value) (site : Site) :
    Eval.Rebased cx old new limit? (cx.callWithin room l₁ code env args site)
      (cx.callWithin room l₂ code env args site) := by
  induction room generalizing l₁ l₂ code env args site with
  | zero =>
    exact callWith_rebased hle (fun _ _ _ _ _ hm => .exhausted hm) code env args site
  | succ room ih =>
    refine callWith_rebased hle (fun env t => ?_) code env args site
    exact (rebased_congruence cx old new limit?).evalWith ih _ _ env t

/-- **On top of other calls evaluation does the same**, until a call is refused for its depth. -/
theorem evalWith_rebased (hle : old.length ≤ new.length) (room l₁ l₂ : Nat) (env : Env)
    (t : Term) : Eval.Rebased cx old new limit? (t.evalWith cx (cx.callWithin room) l₁ env)
      (t.evalWith cx (cx.callWithin room) l₂ env) :=
  (rebased_congruence cx old new limit?).evalWith (callWithin_rebased hle room) l₁ l₂ env t

end Context
end CapLang
