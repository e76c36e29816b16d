import CapLang.Proofs.Balance
import CapLang.Runner

/-!
# Counting changes nothing else

A step mirrors another one if it does the same on a machine that differs in some respect.  No step
looks at a counter, so evaluation that begins with other counters does the same and ends with the
counters changed in the same way (`eval_recounted`), if to change them goes along with counting
(`Counters.Steady`).  To have no counters at all is one such change (`eval_uncounted`).
-/
namespace CapLang

namespace Eval

variable {α β : Type}

/-- What a step came to, with its machine replaced by what `φ` makes of it. -/
def onMachine (φ : Machine → Machine) :
    EStateM.Result Stop Machine α → EStateM.Result Stop Machine α
  | .ok a m => .ok a (φ m)
  | .error e m => .error e (φ m)

/-- On what `φ` makes of a machine, the second step does what the first one does on the machine. -/
def Mirrors (φ : Machine → Machine) (x y : Eval α) (m : Machine) : Prop :=
  y (φ m) = onMachine φ (x m)

variable {φ : Machine → Machine} {x y : Eval α} {f g : α → Eval β} {m : Machine}

theorem Mirrors.of_ok (h : Mirrors φ x y m) {a : α} {m₁ : Machine} (hx : x m = .ok a m₁) :
    y (φ m) = .ok a (φ m₁) := by
  rw [show y (φ m) = onMachine φ (x m) from h, hx, onMachine]

theorem Mirrors.of_error (h : Mirrors φ x y m) {e : Stop} {m₁ : Machine}
    (hx : x m = .error e m₁) : y (φ m) = .error e (φ m₁) := by
  rw [show y (φ m) = onMachine φ (x m) from h, hx, onMachine]

theorem Mirrors.bind (hx : Mirrors φ x y m)
    (hf : ∀ a m₁, x m = .ok a m₁ → Mirrors φ (f a) (g a) m₁) :
    Mirrors φ (x >>= f) (y >>= g) m := by
  unfold Mirrors
  cases h : x m with
  | ok a m₁ =>
    rw [bind_of_ok h, bind_of_ok (hx.of_ok h)]
    exact hf a m₁ h
  | error e m₁ => rw [bind_of_error h, bind_of_error (hx.of_error h), onMachine]

/-- Leaving a call looks at the calls under way and at nothing else. -/
theorem Mirrors.leaving (h : Mirrors φ x y m) (names : NameTable)
    (hleave : ∀ m : Machine, (φ m).leave = φ m.leave)
    (hcalls : ∀ m : Machine, (φ m).stack.calls = m.stack.calls) :
    Mirrors φ (Eval.leaving names x) (Eval.leaving names y) m := by
  unfold Mirrors
  cases hx : x m with
  | ok a m₁ => rw [leaving_of_ok hx, leaving_of_ok (h.of_ok hx), hleave, onMachine]
  | error e m₁ =>
    have hsame : e.leaving names (φ m₁).stack = e.leaving names m₁.stack := by
      cases e with
      | fault f =>
        have hattach : (φ m₁).stack.attach names f = m₁.stack.attach names f := by
          unfold CallStack.attach CallStack.isEmpty CallStack.capture
          rw [hcalls]
        simp only [Stop.leaving, hattach]
      | exhausted => rfl
    rw [leaving_of_error hx, leaving_of_error (h.of_error hx), hleave, hsame, onMachine]

theorem operate_mirrors {cx : Context} {op : Operator} {args : List Value} {site : Site}
    (hworld : (φ m).world = m.world)
    (hset : ∀ w, { φ m with world := w } = φ { m with world := w }) :
    Mirrors φ (Eval.operate cx op args site) (Eval.operate cx op args site) m := by
  unfold Mirrors
  cases h : op.apply cx args m.world with
  | mk r w =>
    have h' : op.apply cx args (φ m).world = (r, w) := by rw [hworld, h]
    cases r with
    | ok v => rw [operate_of_ok h, operate_of_ok h', hset, onMachine]
    | error f => rw [operate_of_error h, operate_of_error h', hset, onMachine]

end Eval

/-! ## Counters -/

/-- A change of counters that goes along with counting: it may come before or after. -/
structure Counters.Steady (h : Option Counters → Option Counters) : Prop where
  term : ∀ c, h (c.map .term) = (h c).map .term
  application : ∀ depth c, h (c.map (.application depth)) = (h c).map (.application depth)
  primitive : ∀ c, h (c.map .primitive) = (h c).map .primitive
  case : ∀ c, h (c.map .case) = (h c).map .case

/-- To have evaluated more terms before is to have evaluated more terms in the end. -/
theorem Counters.steady_terms (n : Nat) :
    Steady (Option.map fun c => { c with terms := c.terms + n }) where
  term c := by
    rw [Option.map_map, Option.map_map]
    refine congrArg (Option.map · c) (funext fun d => ?_)
    simp only [Function.comp, Counters.term, Nat.add_right_comm]
  application depth c := by rw [Option.map_map, Option.map_map]; rfl
  primitive c := by rw [Option.map_map, Option.map_map]; rfl
  case c := by rw [Option.map_map, Option.map_map]; rfl

theorem Counters.steady_term : Steady (Option.map .term) := steady_terms 1

theorem Counters.steady_case : Steady (Option.map .case) where
  term c := by rw [Option.map_map, Option.map_map]; rfl
  application _ c := by rw [Option.map_map, Option.map_map]; rfl
  primitive c := by rw [Option.map_map, Option.map_map]; rfl
  case _ := rfl

/-- The machine with changed counters. -/
def Machine.recounted (h : Option Counters → Option Counters) (m : Machine) : Machine :=
  { m with counters := h m.counters }

/-- The machine without counters. -/
def Machine.uncounted (m : Machine) : Machine := { m with counters := none }

/-- To drop the counters is to count nothing. -/
theorem Counters.steady_none : Steady fun _ => none where
  term _ := rfl
  application _ _ := rfl
  primitive _ := rfl
  case _ := rfl

section Recounted

variable {h : Option Counters → Option Counters} (hh : Counters.Steady h)
include hh

omit hh in
theorem Eval.count_mirrors {f : Counters → Counters} (hf : ∀ c, h (c.map f) = (h c).map f)
    (m : Machine) : Mirrors (Machine.recounted h) (count f) (count f) m := by
  show EStateM.Result.ok () ((m.recounted h).counted f) = .ok () ((m.counted f).recounted h)
  simp only [Machine.recounted, Machine.counted, hf]

theorem Machine.recounted_entered (m : Machine) (c : Call) :
    (m.recounted h).entered c = (m.entered c).recounted h := by
  simp only [recounted, entered, hh.application]

theorem recounted_congruence (cx : Context) :
    Congruence cx fun _ x y => ∀ m, Eval.Mirrors (Machine.recounted h) x y m where
  pure _ _ := rfl
  bind hx hf m := (hx m).bind fun a m₁ _ => hf a m₁
  fault _ _ _ _ := rfl
  term := Eval.count_mirrors hh.term
  case := Eval.count_mirrors hh.case
  primitive := Eval.count_mirrors hh.primitive
  stamp _ := rfl
  operate _ _ _ _ := Eval.operate_mirrors rfl fun _ => rfl

namespace Context

variable (cx : Context)

theorem callWith_recounted {run₁ run₂ : Env → Term → Eval Value}
    (hrun : ∀ env t m, Eval.Mirrors (Machine.recounted h) (run₁ env t) (run₂ env t) m)
    (code : Code) (env : Env) (args : List Value) (site : Site) (m : Machine) :
    Eval.Mirrors (Machine.recounted h) (cx.callWith run₁ code env args site)
      (cx.callWith run₂ code env args site) m := by
  unfold Eval.Mirrors
  by_cases hcount : code.arity = args.length
  · rcases m.admits_or_full with ha | ⟨limit, hl, hfull⟩
    · have ha' : (m.recounted h).Admits := ha
      rw [cx.callWith_entered run₁ env site hcount ha, cx.callWith_entered run₂ env site hcount ha',
        m.recounted_entered hh]
      have hbody := ((recounted_congruence hh cx).bodyEnv code env args
        (m.entered ⟨code.name?, site.span⟩)).bind fun inner m₁ _ => hrun inner code.body m₁
      exact hbody.leaving cx.names (fun _ => rfl) fun _ => rfl
    · have hl' : (m.recounted h).stack.limit? = some limit := hl
      rw [cx.callWith_full run₁ env site hcount hl hfull,
        cx.callWith_full run₂ env site hcount hl' hfull]
      rfl
  · rw [cx.callWith_wrongCount run₁ env site hcount, cx.callWith_wrongCount run₂ env site hcount]
    rfl

theorem callWithin_recounted (room l₁ l₂ : Nat) (code : Code) (env : Env) (args : List Value)
    (site : Site) (m : Machine) :
    Eval.Mirrors (Machine.recounted h) (cx.callWithin room l₁ code env args site)
      (cx.callWithin room l₂ code env args site) m := by
  induction room generalizing l₁ l₂ code env args site m with
  | zero =>
    simp only [callWithin]
    refine cx.callWith_recounted hh (fun env t m => ?_) code env args site m
    rfl
  | succ room ih =>
    simp only [callWithin]
    refine cx.callWith_recounted hh (fun env t m => ?_) code env args site m
    exact (recounted_congruence hh cx).evalWith ih _ _ env t m

/-- **Evaluation does not look at counters**: it may begin with other ones. -/
theorem eval_recounted (p : Nat) (env : Env) (t : Term) (m : Machine) :
    Eval.Mirrors (Machine.recounted h) (cx.eval p env t) (cx.eval p env t) m :=
  (recounted_congruence hh cx).evalWith (cx.callWithin_recounted hh (m.stack.room p)) 0 0 env t m

theorem apply_recounted (p : Nat) (code : Code) (env : Env) (args : List Value) (site : Site)
    (m : Machine) : Eval.Mirrors (Machine.recounted h) (cx.apply p code env args site)
      (cx.apply p code env args site) m :=
  cx.callWithin_recounted hh (m.stack.room p) 0 0 code env args site m

end Context
end Recounted

/-- **Without counters evaluation does the same.** -/
theorem Context.eval_uncounted (cx : Context) (p : Nat) (env : Env) (t : Term) (m : Machine) :
    Eval.Mirrors Machine.uncounted (cx.eval p env t) (cx.eval p env t) m :=
  cx.eval_recounted Counters.steady_none p env t m

/-- **A profiled run is a run**, apart from what it counts. -/
theorem Runner.run_eq_runProfiled (r : Runner) (p : Nat) (t : Term) (w : World) :
    r.run p t w = ((r.runProfiled p t w).1, (r.runProfiled p t w).2.2) := by
  have hmirror := r.context.eval_uncounted p .empty t (.start r.mode true w)
  have hstart : (Machine.start r.mode true w).uncounted = .start r.mode false w := rfl
  cases heval : r.context.eval p .empty t (.start r.mode true w) with
  | ok v m =>
    have hplain := hmirror.of_ok heval
    rw [hstart] at hplain
    simp only [Runner.run, Runner.runProfiled, Runner.start, heval, hplain, Machine.uncounted]
  | error e m =>
    have hplain := hmirror.of_error heval
    rw [hstart] at hplain
    simp only [Runner.run, Runner.runProfiled, Runner.start, heval, hplain, Machine.uncounted]

end CapLang
