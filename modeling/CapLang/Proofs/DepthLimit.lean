import CapLang.Proofs.TwoLimits
import CapLang.Proofs.Termination
import CapLang.Proofs.Worlds
import CapLang.Proofs.Provenance

/-!
# What the limit on nested calls decides

Of two runs of one program, one under a limit and the other beyond it, either both come to the same
or the first one faults for its depth and the second one counted a depth beyond the limit
(`Runner.runProfiled_agree`).  So the greatest depth that a run without a limit counts is the least
limit that changes nothing.  Without a limit no call is refused for its depth
(`Context.unbounded_never_overflows`).
-/
namespace CapLang

variable {limit : Nat}

/-! ## Runs -/

/-- The fault of a run in which calls nest deeper than the limit: it lists as many calls as the
limit allows. -/
structure Fault.Overflow (limit : Nat) (f : Fault) : Prop where
  cause : f.cause = .stackOverflow limit
  backtrace : limit = 0 ∧ f.backtrace = none ∨
    0 < limit ∧ ∃ b, f.backtrace = some b ∧ b.frames.length = limit

theorem Fault.Overflow.class_eq {f : Fault} (h : f.Overflow limit) :
    f.cause.faultClass = .stackOverflow := by
  rw [h.cause]
  rfl

namespace Runner

variable {r : Runner} {p : Nat} {t : Term} {w : World}

theorem runProfiled_of_ok {v : Value} {m : Machine}
    (h : r.context.eval p .empty t (.start r.mode true w) = .ok v m) :
    r.runProfiled p t w = (.ok v, m.counters.getD .zero, m.world) := by
  simp only [runProfiled, start, h]

theorem runProfiled_of_error {e : Stop} {m : Machine}
    (h : r.context.eval p .empty t (.start r.mode true w) = .error e m) :
    r.runProfiled p t w = (.error e, m.counters.getD .zero, m.world) := by
  simp only [runProfiled, start, h]

theorem runProfiled_after (r : Runner) (p : Nat) (t : Term) (w : World) :
    (r.runProfiled p t w).2 =
      (((r.context.eval p .empty t).after (.start r.mode true w)).counters.getD .zero,
        ((r.context.eval p .empty t).after (.start r.mode true w)).world) := by
  cases h : r.context.eval p .empty t (.start r.mode true w) with
  | ok v m => rw [runProfiled_of_ok h, Eval.after_of_ok h]
  | error e m => rw [runProfiled_of_error h, Eval.after_of_error h]

variable {cx : Context} {mode higher : Mode} {q : Nat}

/-- Under a limit, patience makes no difference to a run, and only the limit of the mode counts. -/
theorem runProfiled_limit (hl : mode.limit? = some limit) (hl' : higher.limit? = some limit) :
    runProfiled ⟨cx, mode⟩ p t w = runProfiled ⟨cx, higher⟩ q t w := by
  have hstart : Machine.start mode true w = .start higher true w := by
    simp only [Machine.start, hl, hl']
  have hroom : (Machine.start higher true w).stack.room p =
      (Machine.start higher true w).stack.room q := by
    rw [CallStack.room_of_limit hl', CallStack.room_of_limit hl']
  simp only [runProfiled, start, hstart, Context.eval, hroom]

/-- **A run under a limit and a run beyond it** come to the same, unless the first one refuses a
call for its depth. -/
theorem runProfiled_agree (hi : cx.invoke = World.invoke) (hl : mode.limit? = some limit)
    (hhigher : ∀ l, higher.limit? = some l → limit < l)
    (hpatience : higher.limit? = none → limit ≤ q) (p : Nat) (t : Term) (w : World) :
    (runProfiled ⟨cx, higher⟩ q t w = runProfiled ⟨cx, mode⟩ p t w ∧
      (runProfiled ⟨cx, mode⟩ p t w).2.1.maxDepth ≤ limit) ∨
    ∃ f, (runProfiled ⟨cx, mode⟩ p t w).1 = .error (.fault f) ∧ f.Overflow limit ∧
      (runProfiled ⟨cx, mode⟩ p t w).2.1.maxDepth = limit ∧
      (runProfiled ⟨cx, mode⟩ p t w).2.2.calls <:+ (runProfiled ⟨cx, higher⟩ q t w).2.2.calls ∧
      limit < (runProfiled ⟨cx, higher⟩ q t w).2.1.maxDepth := by
  have hunder : (Machine.start mode true w).Under limit limit :=
    ⟨hl, Nat.zero_add _, _, rfl, Nat.le_refl _, Nat.zero_le _⟩
  have hroom₁ : (Machine.start mode true w).stack.room p = limit := CallStack.room_of_limit hl p
  have hroom₂ : limit ≤ (Machine.start higher true w).stack.room q := by
    cases hh : higher.limit? with
    | none =>
      have hroom : (Machine.start higher true w).stack.room q = q := by
        simp only [Machine.start, CallStack.empty, CallStack.room, hh]
      rw [hroom]
      exact hpatience hh
    | some l =>
      have hlt := hhigher l hh
      have hroom : (Machine.start higher true w).stack.room q = l := CallStack.room_of_limit hh q
      omega
  have hlow : cx.eval p .empty t (.start mode true w) =
      t.evalWith cx (cx.callWithin limit) 0 .empty (.start mode true w) := by
    rw [Context.eval, hroom₁]
  have hbalanced := evalWith_balanced cx limit 0 .empty t
  -- Both runs begin on machines that differ in nothing but their limits.
  rcases Context.evalWith_agree hi hhigher hroom₂ .empty t (.start mode true w) hunder with
    ⟨hmirror, hafter⟩ | ⟨f, m₁, hf, hbeyond, hcalls, hdepth⟩
  · left
    obtain ⟨c, hc, -, hbounded⟩ := hafter.counts
    cases heval : cx.eval p .empty t (.start mode true w) with
    | ok v m =>
      have hrun := hlow ▸ heval
      rw [Eval.after_of_ok hrun] at hc
      rw [@runProfiled_of_ok ⟨cx, mode⟩ _ _ _ _ _ heval,
        @runProfiled_of_ok ⟨cx, higher⟩ _ _ _ _ _ (hmirror.of_ok hrun)]
      refine ⟨rfl, ?_⟩
      simp only [hc, Option.getD_some]
      exact hbounded
    | error e m =>
      have hrun := hlow ▸ heval
      rw [Eval.after_of_error hrun] at hc
      rw [@runProfiled_of_error ⟨cx, mode⟩ _ _ _ _ _ heval,
        @runProfiled_of_error ⟨cx, higher⟩ _ _ _ _ _ (hmirror.of_error hrun)]
      refine ⟨rfl, ?_⟩
      simp only [hc, Option.getD_some]
      exact hbounded
  · right
    obtain ⟨c, hc, hmax⟩ := hbeyond.maxDepth
    obtain ⟨c', hc', hlt⟩ := hdepth
    have hstack := hbalanced.stack_of_error hf
    rw [@runProfiled_of_error ⟨cx, mode⟩ _ _ _ _ _ (hlow.trans hf), runProfiled_after]
    refine ⟨f, rfl, ⟨hbeyond.cause, ?_⟩, ?_, hcalls, ?_⟩
    · rcases hbeyond.trace with ⟨hnone, hdepth⟩ | hsome
      · rw [hstack] at hdepth
        exact .inl ⟨hdepth.symm, hnone⟩
      · exact .inr hsome
    · simp only [hc, Option.getD_some]
      exact hmax
    · have hhigh : ((cx.eval q .empty t).after (.start higher true w)).counters = some c' := hc'
      simp only [hhigh, Option.getD_some]
      exact hlt

end Runner

/-! ## Without a limit -/

namespace Context

/-- **Without a limit no call is refused for its depth**, and hosts are trusted not to claim so. -/
theorem unbounded_never_overflows {cx : Context} (hi : cx.invoke = World.invoke) (p : Nat)
    (env : Env) (t : Term) {m m' : Machine} {f : Fault} (hl : m.stack.limit? = none)
    (hw : m.world.NeverRaises .stackOverflow) (h : cx.eval p env t m = .error (.fault f) m') :
    f.cause.faultClass ≠ .stackOverflow := by
  obtain ⟨active, inner, u, m₁, raw, hwithin, hdetects, rfl⟩ := eval_fault_origin p env t m h
  show raw.cause.faultClass ≠ .stackOverflow
  have hk := neverRaises_kept hi .stackOverflow
  have hl₁ : m₁.stack.limit? = none := hwithin.stack.2.trans hl
  have hw₁ : m₁.world.NeverRaises .stackOverflow := hwithin.keeps hk hw
  cases hdetects with
  | refused callee arguments refuses =>
    cases refuses with
    | count differs => nofun
    | depth agrees limited full =>
      -- No step on the way changes the limit.
      rw [arguments.stack, callee.stack, Machine.counted_stack, hl₁] at limited
      cases limited
  | operator operands fails plain => exact FaultClass.ne_of_ofPrimitive plain rfl
  | host operands raises =>
    rw [hi] at raises
    have hw₂ := operands.keeps hk (m := m₁.counted .term) hw₁
    exact hw₂.invoke_fault _ _ _ _ rfl (congrArg Prod.fst raises)
  | _ => nofun

end Context

namespace Runner

variable {cx : Context} {mode : Mode} {p q : Nat} {t : Term} {w : World}

/-- A run that came to an end comes to the same end with more patience. -/
theorem runProfiled_patient {r : Runner} (hend : (r.runProfiled p t w).1 ≠ .error .exhausted)
    (hpq : p ≤ q) : r.runProfiled q t w = r.runProfiled p t w := by
  have hsame : r.context.eval q .empty t (.start r.mode true w) =
      r.context.eval p .empty t (.start r.mode true w) := by
    refine r.context.eval_refines hpq .empty t _ fun m' h => hend ?_
    rw [runProfiled_of_error h]
  simp only [runProfiled, start, hsame]

/-- A run under a limit comes to an end. -/
theorem runProfiled_ends (hl : mode.limit? = some limit) :
    (runProfiled ⟨cx, mode⟩ p t w).1 ≠ .error .exhausted := by
  intro h
  cases heval : cx.eval p .empty t (.start mode true w) with
  | ok v m =>
    rw [@runProfiled_of_ok ⟨cx, mode⟩ _ _ _ _ _ heval] at h
    cases h
  | error e m =>
    rw [@runProfiled_of_error ⟨cx, mode⟩ _ _ _ _ _ heval] at h
    cases h
    exact Context.eval_not_exhausted p .empty t _ hl m heval

/-- A run that does not overflow does the same beyond its limit. -/
theorem runProfiled_beyond (hi : cx.invoke = World.invoke) (hl : mode.limit? = some limit)
    (hno : ∀ f, (runProfiled ⟨cx, mode⟩ p t w).1 = .error (.fault f) →
      f.cause.faultClass ≠ .stackOverflow)
    {higher : Mode} (hhigher : ∀ l, higher.limit? = some l → limit < l)
    (hpatience : higher.limit? = none → limit ≤ q) :
    runProfiled ⟨cx, higher⟩ q t w = runProfiled ⟨cx, mode⟩ p t w := by
  rcases runProfiled_agree hi hl hhigher hpatience p t w with ⟨hsame, -⟩ | ⟨f, hf, hover, -⟩
  · exact hsame
  · exact absurd hover.class_eq (hno f hf)

/-- What a run without a limit counts says what it comes to under a limit. -/
theorem runProfiled_below (hi : cx.invoke = World.invoke)
    (hend : (runProfiled ⟨cx, .unbounded⟩ p t w).1 ≠ .error .exhausted)
    (hl : mode.limit? = some limit) (q : Nat) :
    ((runProfiled ⟨cx, .unbounded⟩ p t w).2.1.maxDepth ≤ limit →
      runProfiled ⟨cx, mode⟩ q t w = runProfiled ⟨cx, .unbounded⟩ p t w) ∧
    (limit < (runProfiled ⟨cx, .unbounded⟩ p t w).2.1.maxDepth →
      ∃ f, (runProfiled ⟨cx, mode⟩ q t w).1 = .error (.fault f) ∧ f.Overflow limit ∧
        (runProfiled ⟨cx, mode⟩ q t w).2.1.maxDepth = limit ∧
        (runProfiled ⟨cx, mode⟩ q t w).2.2.calls <:+
          (runProfiled ⟨cx, .unbounded⟩ p t w).2.2.calls) := by
  have hsame := runProfiled_patient hend (Nat.le_max_left p limit)
  have hagree := @runProfiled_agree limit cx mode .unbounded (max p limit) hi hl nofun
    (fun _ => Nat.le_max_right p limit) q t w
  rw [hsame] at hagree
  rcases hagree with ⟨heq, hle⟩ | ⟨f, hf, hover, hmax, hcalls, hlt⟩
  · refine ⟨fun _ => heq.symm, fun hlt => ?_⟩
    rw [heq] at hlt
    omega
  · exact ⟨fun hle => absurd hlt (Nat.not_lt.mpr hle), fun _ => ⟨f, hf, hover, hmax, hcalls⟩⟩

end Runner

/-- **The limit decides the outcome exactly.**  A run under a limit that does not end in an
overflow comes to an end, and to the same end without a limit and under every higher one.  A run
without a limit that comes to an end with a greatest depth `d` comes to the same end under every
limit from `d` on; under a lower one it ends in an overflow with just as many calls under way,
having made the first of the calls of host objects.  Without a limit nothing overflows.  What is
said here of profiled runs holds of plain ones, which differ in nothing but the counters. -/
theorem depth_limit_decides (names : NameTable) (registry : Registry) (t : Term) (w : World) :
    let cx : Context := ⟨names, registry, World.invoke⟩
    let run (mode : Mode) (p : Nat) : Outcome × Counters × World :=
      Runner.runProfiled ⟨cx, mode⟩ p t w
    (∀ mode limit p, mode.limit? = some limit →
      (∀ f, (run mode p).1 = .error (.fault f) → f.cause.faultClass ≠ .stackOverflow) →
        (run mode p).1 ≠ .error .exhausted ∧
        (∀ q, limit ≤ q → run .unbounded q = run mode p) ∧
        ∀ higher n q, higher.limit? = some n → limit ≤ n → run higher q = run mode p) ∧
    (∀ p, (run .unbounded p).1 ≠ .error .exhausted →
      ∀ mode limit q, mode.limit? = some limit →
        ((run .unbounded p).2.1.maxDepth ≤ limit → run mode q = run .unbounded p) ∧
        (limit < (run .unbounded p).2.1.maxDepth →
          ∃ f, (run mode q).1 = .error (.fault f) ∧ f.Overflow limit ∧
            (run mode q).2.1.maxDepth = limit ∧
            (run mode q).2.2.calls <:+ (run .unbounded p).2.2.calls)) ∧
    (w.NeverRaises .stackOverflow → ∀ p f, (run .unbounded p).1 = .error (.fault f) →
      f.cause.faultClass ≠ .stackOverflow) ∧
    (∀ mode p, Runner.run ⟨cx, mode⟩ p t w = ((run mode p).1, (run mode p).2.2)) := by
  intro cx run
  refine ⟨fun mode limit p hl hno => ⟨Runner.runProfiled_ends hl, fun q hq => ?_,
      fun higher n q hn hle => ?_⟩,
    fun p hend mode limit q hl => Runner.runProfiled_below rfl hend hl q,
    fun hw p f hf => ?_, fun mode p => Runner.run_eq_runProfiled ⟨cx, mode⟩ p t w⟩
  · exact Runner.runProfiled_beyond rfl hl hno nofun fun _ => hq
  · rcases Nat.eq_or_lt_of_le hle with rfl | hlt
    · exact Runner.runProfiled_limit hn hl
    · refine Runner.runProfiled_beyond rfl hl hno (fun l h => ?_) fun h => ?_
      · rw [hn] at h
        cases h
        exact hlt
      · rw [hn] at h
        cases h
  · obtain ⟨m', heval⟩ := Runner.start_fault hf
    exact Context.unbounded_never_overflows rfl p .empty t rfl hw heval

/-- One call is nested in the application of the identity: a limit of one changes nothing, and a
limit of none refuses it. -/
theorem identity_call_depth :
    let cx : Context := ⟨.initial, .empty, World.invoke⟩
    let t : Term := .app (some ⟨0, 9⟩) (.lambda none ⟨0⟩ ⟨none, [⟨1⟩]⟩ (.var none ⟨1⟩))
      [.literal none (.int 1)]
    let run (mode : Mode) (p : Nat) : Outcome × Counters × World :=
      Runner.runProfiled ⟨cx, mode⟩ p t (.ofInput ByteArray.empty)
    (run .unbounded 1).1 = .ok (.int 1) ∧ (run .unbounded 1).2.1.maxDepth = 1 ∧
      run (.bounded 1) 0 = run .unbounded 1 ∧
      ∃ f, (run (.bounded 0) 0).1 = .error (.fault f) ∧ f.Overflow 0 ∧
        (run (.bounded 0) 0).2.1.maxDepth = 0 ∧
        (run (.bounded 0) 0).2.2.calls <:+ (run .unbounded 1).2.2.calls := by
  intro cx t run
  have hvalue : (run .unbounded 1).1 = .ok (.int 1) := rfl
  have hdepth : (run .unbounded 1).2.1.maxDepth = 1 := rfl
  have hend : (run .unbounded 1).1 ≠ .error .exhausted := by
    rw [hvalue]
    nofun
  have hdecides := depth_limit_decides .initial .empty t (.ofInput ByteArray.empty)
  have hbelow : 0 < (run .unbounded 1).2.1.maxDepth := by
    rw [hdepth]
    exact Nat.zero_lt_one
  refine ⟨hvalue, hdepth, ?_, ?_⟩
  · exact (hdecides.2.1 1 hend (.bounded 1) 1 0 rfl).1 (Nat.le_of_eq hdepth)
  · exact (hdecides.2.1 1 hend (.bounded 0) 0 0 rfl).2 hbelow

end CapLang
