import CapLang.Proofs.Stops
import CapLang.Runner

/-!
# The provenance of faults

A fault is raised by the one term that detects it.  On its way out nothing is changed in it; only
empty places are filled.  The term that detected it becomes its site, and the first call that it
leaves gives it the calls under way as its backtrace.  Later calls find a backtrace and leave it, so
it always lists all calls that were under way at the detection (`eval_fault_origin`).
-/
namespace CapLang

/-- A call as a backtrace shows it: by the name of its function, and the term that made it. -/
def Call.frame (names : NameTable) (c : Call) : BacktraceFrame :=
  ⟨(c.callee.map names.resolve).getD "<anonymous>", c.span⟩

namespace Fault

/-- The backtrace that calls attach on the way out: of all calls under way, if one of them was
entered since the evaluation began. -/
def traceOf (names : NameTable) (active base : List Call) : Option Backtrace :=
  if active = [] then none else some ⟨(active ++ base).map (·.frame names)⟩

/-- A fault with its empty places filled: the site, and the backtrace. -/
def filled (raw : Fault) (site : Site) (trace : Option Backtrace) : Fault :=
  { raw with site := raw.site.or (some site), backtrace := raw.backtrace.or trace }

theorem filled_none (raw : Fault) (site : Site) : raw.filled site none = raw.withSite site := by
  unfold filled withSite
  rw [Option.or_none]

/-- A fault that has a backtrace keeps it. -/
theorem attached_leaving (names : NameTable) {f : Fault} (h : f.backtrace.isSome)
    (s : CallStack) : Stop.leaving names s (.fault f) = .fault f := by
  rw [Stop.leaving, if_pos h]

/-- Leaving a call fills in the backtrace, with that call as the oldest of those entered. -/
theorem traced_leaving (names : NameTable) (raw : Fault) (active base : List Call) (c : Call)
    {s : CallStack} (hs : s.calls = c :: base) :
    Stop.leaving names s
        (.fault { raw with backtrace := traceOf names active (c :: base) }) =
      .fault { raw with backtrace := traceOf names (active ++ [c]) base } := by
  have hcapture : s.capture names = ⟨(c :: base).map (·.frame names)⟩ := by
    simp only [CallStack.capture, hs]
    rfl
  have hbusy : s.isEmpty = false := by simp [CallStack.isEmpty, hs]
  cases active with
  | nil =>
    simp [Stop.leaving, traceOf, CallStack.attach, hbusy, Fault.withBacktrace, hcapture]
  | cons d active => simp [Stop.leaving, traceOf]

theorem filled_leaving (names : NameTable) (raw : Fault) (site : Site) (active base : List Call)
    (c : Call) {s : CallStack} (hs : s.calls = c :: base) :
    Stop.leaving names s (.fault (raw.filled site (traceOf names active (c :: base)))) =
      .fault (raw.filled site (traceOf names (active ++ [c]) base)) := by
  cases hb : raw.backtrace with
  | some b => simp [Stop.leaving, filled, hb]
  | none =>
    have htraced := traced_leaving names (raw.withSite site) active base c hs
    simpa only [filled, hb, Option.none_or, withSite] using htraced

end Fault

namespace Context

variable {cx : Context}

/-- A call that may be entered is not refused. -/
theorem not_refuses {code : Code} {args : List Value} {m : Machine}
    (count : code.arity = args.length) (admits : m.Admits) (cause : Cause) :
    ¬ cx.Refuses code args m cause := by
  intro h
  cases h with
  | count differs => exact differs count
  | depth agrees limited full =>
    have hlt := admits _ limited
    omega

/-- **Every fault comes from a detection** in a job within the evaluation, with its empty places
filled: the site by the term that detected it, the backtrace by the calls under way. -/
theorem eval_fault_origin (p : Nat) (env : Env) (t : Term) (m : Machine) {f : Fault}
    {m' : Machine} (h : cx.eval p env t m = .error (.fault f) m') :
    ∃ active inner u m₁ raw, cx.Within (.eval env t m) active (.eval inner u m₁) ∧
      cx.Detects inner u m₁ raw ∧
      f = raw.filled (.ofTerm u) (Fault.traceOf cx.names active m.stack.calls) := by
  revert f m'
  -- Parts are evaluated with the same room and are smaller; bodies of calls have less room.
  induction p, env, t, m using eval_induction with
  | step p env t m ih =>
    intro f m' h
    cases eval_stop h with
    | @detected raw detects raised =>
      cases raised
      exact ⟨[], env, t, m, raw, .refl, detects, (raw.filled_none _).symm⟩
    | @part inner u m₁ step stops =>
      obtain ⟨hs, hsize⟩ := step.stays
      obtain ⟨active, inner', u', m₂, raw, hwithin, hdetects, rfl⟩ :=
        ih p inner u m₁ (.inr ⟨congrArg (·.room p) hs, hsize⟩) stops
      have hpath := Within.head step hwithin
      rw [List.append_nil] at hpath
      have hcalls : m₁.stack.calls = m.stack.calls := congrArg CallStack.calls hs
      exact ⟨active, inner', u', m₂, raw, hpath, hdetects, by rw [hcalls]⟩
    | @call code closed values m₁ step count admits stops =>
      have hs : m₁.stack = m.stack := step.stays.1
      rcases apply_stop stops with ⟨cause, hrefused, -⟩ |
        ⟨inner, m₂, e₁, m₃, hbody, hlt, hstop, hleave⟩ | ⟨-, hex⟩
      · exact absurd hrefused (not_refuses count admits cause)
      · cases e₁ with
        | exhausted => cases hleave
        | fault f₁ =>
          rw [hs] at hlt
          obtain ⟨active, inner', u', m₄, raw, hwithin, hdetects, rfl⟩ :=
            ih (p - 1) inner code.body m₂ (.inl hlt) hstop
          have hcalls : m₂.stack.calls =
              ⟨code.name?, (Site.ofTerm t).span⟩ :: m.stack.calls := by
            rw [← hs]
            exact hbody.stack.1
          have hpath := Within.head step (Within.head hbody hwithin)
          rw [List.append_nil] at hpath
          refine ⟨_, inner', u', m₄, raw, hpath, hdetects, ?_⟩
          -- The call that is left was the first one entered on the way to the detection.
          rw [hcalls, Fault.filled_leaving cx.names raw _ active _ _ hcalls] at hleave
          cases hleave
          rfl
      · cases hex

variable (cx)

/-- A host object raised the fault when a term called one of its methods. -/
def RaisedByHost (env : Env) (t : Term) (m : Machine) (raw : Fault) : Prop :=
  ∃ span method args handle rest m₁ w, t = .prim span (.invoke method) args ∧
    cx.GivesAll env args (m.counted .term) (.capability handle :: rest) m₁ ∧
    cx.invoke m₁.world handle (cx.names.resolve method) rest = (.error raw, w)

/-- **A fault of an evaluation traced to its detection**: in an inner job, the evaluation of `u`
with the calls `active` under way, `u` detected a fault `raw`, and this is the same fault with its
empty places filled. -/
structure Traced (env : Env) (t : Term) (m : Machine) (f : Fault) (active : List Call)
    (inner : Env) (u : Term) (m₁ : Machine) (raw : Fault) : Prop where
  within : cx.Within (.eval env t m) active (.eval inner u m₁)
  /-- No other calls are under way there; one that `u` makes and that is refused is not. -/
  calls : m₁.stack.calls = active
  detects : cx.Detects inner u m₁ raw
  /-- Only a host object fills a place before the term does. -/
  empty : raw.site = none ∧ raw.backtrace = none ∨ cx.RaisedByHost inner u m₁ raw
  cause : f.cause = raw.cause
  message : f.message = raw.message
  notes : f.notes = raw.notes
  site : f.site = raw.site.or (some ⟨u.span, u.form⟩)
  backtrace : f.backtrace = raw.backtrace.or
    (if active = [] then none else some ⟨active.map (·.frame cx.names)⟩)

variable {cx}

theorem Detects.empty_or_host {env : Env} {t : Term} {m : Machine} {raw : Fault}
    (h : cx.Detects env t m raw) :
    raw.site = none ∧ raw.backtrace = none ∨ cx.RaisedByHost env t m raw := by
  cases h with
  | host operands raises => exact .inr ⟨_, _, _, _, _, _, _, rfl, operands, raises⟩
  | _ => exact .inl ⟨rfl, rfl⟩

theorem eval_fault_traced (p : Nat) (env : Env) (t : Term) {m m' : Machine} {f : Fault}
    (idle : m.stack.calls = []) (h : cx.eval p env t m = .error (.fault f) m') :
    ∃ active inner u m₁ raw, cx.Traced env t m f active inner u m₁ raw := by
  obtain ⟨active, inner, u, m₁, raw, hwithin, hdetects, rfl⟩ := eval_fault_origin p env t m h
  have hcalls : m₁.stack.calls = active := by
    have hstack := hwithin.stack.1
    simp only [Job.machine, idle, List.append_nil] at hstack
    exact hstack
  refine ⟨active, inner, u, m₁, raw, ?_⟩
  exact {
    within := hwithin
    calls := hcalls
    detects := hdetects
    empty := hdetects.empty_or_host
    cause := rfl
    message := rfl
    notes := rfl
    site := rfl
    backtrace := by simp only [Fault.filled, Fault.traceOf, idle, List.append_nil] }

end Context

theorem Runner.start_fault {r : Runner} {counting : Bool} {p : Nat} {t : Term} {w : World}
    {f : Fault} (h : (r.start counting p t w).1 = .error (.fault f)) :
    ∃ m', r.context.eval p .empty t (.start r.mode counting w) = .error (.fault f) m' := by
  unfold Runner.start at h
  cases heval : r.context.eval p .empty t (.start r.mode counting w) with
  | ok v m' =>
    rw [heval] at h
    cases h
  | error e m' =>
    rw [heval] at h
    cases h
    exact ⟨m', rfl⟩

/-- **Provenance of faults.**  Every fault of an evaluation that begins with no call under way, and
so every fault of a run, is traced to the term that detected it. -/
theorem fault_provenance :
    (∀ (cx : Context) (p : Nat) (env : Env) (t : Term) (m m' : Machine) (f : Fault),
      m.stack.calls = [] → cx.eval p env t m = .error (.fault f) m' →
        ∃ active inner u m₁ raw, cx.Traced env t m f active inner u m₁ raw) ∧
    (∀ (r : Runner) (counting : Bool) (p : Nat) (t : Term) (w : World) (f : Fault),
      (r.start counting p t w).1 = .error (.fault f) →
        ∃ active inner u m₁ raw,
          r.context.Traced .empty t (.start r.mode counting w) f active inner u m₁ raw) := by
  refine ⟨fun cx p env t m m' f idle h => Context.eval_fault_traced p env t idle h,
    fun r counting p t w f h => ?_⟩
  obtain ⟨m', heval⟩ := Runner.start_fault h
  exact Context.eval_fault_traced p .empty t rfl heval

/-- The call that is refused for its depth is the site of the fault and not part of its
backtrace. -/
theorem self_application_fault_provenance :
    let r : Runner := ⟨⟨.initial, .empty, World.invoke⟩, .bounded 2⟩
    let t : Term := .app none SelfApplication.twice [SelfApplication.twice]
    let w : World := .ofInput ByteArray.empty
    let f : Fault :=
      { cause := .stackOverflow 2
        message := "maximum call depth exceeded (limit: 2)"
        site := some ⟨some ⟨4, 8⟩, "Application"⟩
        backtrace := some ⟨[⟨"<anonymous>", some ⟨4, 8⟩⟩, ⟨"<anonymous>", none⟩]⟩
        notes := [] }
    (r.start false 0 t w).1 = .error (.fault f) ∧
      ∃ active inner u m₁ raw,
        r.context.Traced .empty t (.start r.mode false w) f active inner u m₁ raw :=
  ⟨rfl, fault_provenance.2 _ _ 0 _ _ _ rfl⟩

end CapLang
