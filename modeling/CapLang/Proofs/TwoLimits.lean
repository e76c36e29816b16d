import CapLang.Proofs.Counting
import CapLang.Proofs.Growth

/-!
# Evaluation under two limits

Two evaluations of one term, one under a limit and the other under a higher limit or none, do the
same until the first of them refuses a call for its depth (`Eval.Agree`).  From there on the first
one is on its way out with the fault, while the second one has entered a call deeper than the limit
and can only add to its records.
-/
namespace CapLang

namespace Machine

/-- The machine under another limit, or without one. -/
def withLimit (limit? : Option Nat) (m : Machine) : Machine :=
  { m with stack := { m.stack with limit? := limit? } }

/-- The machine runs under a limit that leaves room for so many more nested calls, and it counts;
no counted depth is beyond the limit. -/
structure Under (limit room : Nat) (m : Machine) : Prop where
  limited : m.stack.limit? = some limit
  room : m.stack.depth + room = limit
  counts : ∃ c, m.counters = some c ∧ m.stack.depth ≤ c.maxDepth ∧ c.maxDepth ≤ limit

variable {limit room : Nat} {m : Machine}

theorem Under.counted (h : m.Under limit room) {f : Counters → Counters}
    (hf : ∀ c, (f c).maxDepth = c.maxDepth) : (m.counted f).Under limit room where
  limited := h.limited
  room := h.room
  counts := by
    obtain ⟨c, hc, hdeep, hbounded⟩ := h.counts
    refine ⟨f c, ?_, ?_, ?_⟩
    · rw [Machine.counted, hc]
      rfl
    · rw [hf]
      exact hdeep
    · rw [hf]
      exact hbounded

theorem Under.world (h : m.Under limit room) (w : World) :
    Under limit room { m with world := w } := ⟨h.limited, h.room, h.counts⟩

theorem Under.entered (h : m.Under limit (room + 1)) (c : Call) :
    (m.entered c).Under limit room := by
  have hroom := h.room
  have hdepth : (m.entered c).stack.depth = m.stack.depth + 1 := rfl
  obtain ⟨d, hd, -, hbounded⟩ := h.counts
  refine ⟨h.limited, by omega, d.application (m.stack.depth + 1), ?_, ?_, ?_⟩
  · rw [Machine.entered, hd]
    rfl
  · exact Nat.le_max_right _ _
  · exact Nat.max_le.mpr ⟨hbounded, by omega⟩

theorem Under.leave (h : m.Under limit room) (hdepth : 0 < m.stack.depth) :
    m.leave.Under limit (room + 1) := by
  have hroom := h.room
  have hpop : m.leave.stack.depth = m.stack.depth - 1 := rfl
  obtain ⟨c, hc, hdeep, hbounded⟩ := h.counts
  exact ⟨h.limited, by omega, c, hc, by omega, hbounded⟩

theorem Under.admits (h : m.Under limit (room + 1)) : m.Admits := by
  intro limit' hl
  have hroom := h.room
  rw [h.limited] at hl
  cases hl
  omega

end Machine

/-- **The fault of a call beyond the limit**, on its way out to the given machine.  Until a call is
left it has no backtrace, afterwards it lists as many calls as the limit allows. -/
structure Fault.Beyond (limit : Nat) (f : Fault) (m : Machine) : Prop where
  cause : f.cause = .stackOverflow limit
  trace : f.backtrace = none ∧ m.stack.depth = limit ∨
    0 < limit ∧ ∃ b, f.backtrace = some b ∧ b.frames.length = limit
  maxDepth : ∃ c, m.counters = some c ∧ c.maxDepth = limit

namespace Eval

variable {α β : Type} (limit room : Nat) (limit? : Option Nat)

/-- The first step refused a call for its depth, and the second one entered it. -/
def Parts (x y : Eval α) (m : Machine) : Prop :=
  ∃ f m₁, x m = .error (.fault f) m₁ ∧ f.Beyond limit m₁ ∧
    m₁.world.calls <:+ (y.after (m.withLimit limit?)).world.calls ∧
    ∃ c, (y.after (m.withLimit limit?)).counters = some c ∧ limit < c.maxDepth

/-- **Under the limit the first step does what the second one does beyond it, until it refuses a
call.** -/
def Agree (x y : Eval α) : Prop :=
  ∀ m : Machine, m.Under limit room →
    Mirrors (Machine.withLimit limit?) x y m ∧ (x.after m).Under limit room ∨
      Parts limit limit? x y m

variable {limit room limit?}

theorem Parts.later {x : Eval α} {y : Eval α} {x' y' : Eval β} {m : Machine}
    (h : Parts limit limit? x y m) (hx : ∀ e m₁, x m = .error e m₁ → x' m = .error e m₁)
    (hy : (y.after (m.withLimit limit?)).Later (y'.after (m.withLimit limit?))) :
    Parts limit limit? x' y' m := by
  obtain ⟨f, m₁, hf, hbeyond, hcalls, c, hc, hlt⟩ := h
  obtain ⟨c', hc', hle⟩ := hy.maxDepth c hc
  exact ⟨f, m₁, hx _ _ hf, hbeyond, hcalls.trans hy.calls, c', hc', Nat.lt_of_lt_of_le hlt hle⟩

theorem Agree.bind {x y : Eval α} {f g : α → Eval β} (hx : Agree limit room limit? x y)
    (hf : ∀ a, Agree limit room limit? (f a) (g a)) (hg : ∀ a, (g a).Grows) :
    Agree limit room limit? (x >>= f) (y >>= g) := by
  intro m hm
  rcases hx m hm with ⟨hmirror, hunder⟩ | hparts
  -- While the first steps mirror each other, the second ones begin on mirrored machines.
  · cases h : x m with
    | ok a m₁ =>
      have hy := hmirror.of_ok h
      rw [after_of_ok h] at hunder
      rcases hf a m₁ hunder with ⟨hmirror₁, hunder₁⟩ | ⟨e, m₂, he, hbeyond, hcalls, hdepth⟩
      · left
        rw [bind_after_of_ok h]
        refine ⟨hmirror.bind fun b m₂ hb => ?_, hunder₁⟩
        rw [h] at hb
        cases hb
        exact hmirror₁
      · right
        unfold Parts
        rw [bind_of_ok h, bind_after_of_ok hy]
        exact ⟨e, m₂, he, hbeyond, hcalls, hdepth⟩
    | error e m₁ =>
      left
      rw [bind_after_of_error h]
      refine ⟨hmirror.bind fun b m₂ hb => ?_, hunder⟩
      rw [h] at hb
      cases hb
  -- Once they have parted, what follows on one side only adds to the records.
  · exact .inr (hparts.later (fun e m₁ he => bind_of_error he) (bind_later hg _))

theorem operate_agree (cx : Context) (op : Operator) (args : List Value) (site : Site) :
    Agree limit room limit? (Eval.operate cx op args site) (Eval.operate cx op args site) := by
  intro m hm
  left
  refine ⟨operate_mirrors rfl fun _ => rfl, ?_⟩
  rw [operate_after]
  exact hm.world _

end Eval

variable {limit room : Nat} {limit? : Option Nat}

theorem agree_congruence {cx : Context} (hi : cx.invoke = World.invoke) (limit room : Nat)
    (limit? : Option Nat) :
    Congruence cx fun _ x y => Eval.Agree limit room limit? x y ∧ y.Grows where
  pure a := ⟨fun _ hm => .inl ⟨rfl, hm⟩, (grows_congruence hi).pure a⟩
  bind hx hf := ⟨hx.1.bind (fun a => (hf a).1) fun a => (hf a).2,
    (grows_passage hi).bind hx.2 fun a => (hf a).2⟩
  fault f hb hc := ⟨fun _ hm => .inl ⟨rfl, hm⟩, (grows_congruence hi).fault f hb hc⟩
  term := ⟨fun _ hm => .inl ⟨rfl, hm.counted fun _ => rfl⟩, (grows_congruence hi).term⟩
  case := ⟨fun _ hm => .inl ⟨rfl, hm.counted fun _ => rfl⟩, (grows_congruence hi).case⟩
  primitive := ⟨fun _ hm => .inl ⟨rfl, hm.counted fun _ => rfl⟩, (grows_congruence hi).primitive⟩
  stamp := ⟨fun _ hm => .inl ⟨rfl, hm.world _⟩, (grows_congruence hi).stamp⟩
  operate op args site :=
    ⟨Eval.operate_agree cx op args site, (grows_congruence hi).operate op args site⟩

/-- Leaving a call keeps the fault of a call beyond the limit what it is: the first call left gives
it the backtrace, which then lists as many calls as the limit allows. -/
theorem Fault.Beyond.leaving {f : Fault} {m : Machine} (h : f.Beyond limit m) (hpos : 0 < limit)
    (names : NameTable) :
    ∃ f', (Stop.fault f).leaving names m.stack = .fault f' ∧ f'.Beyond limit m.leave := by
  rcases h.trace with ⟨hnone, hdepth⟩ | ⟨-, b, hb, hlength⟩
  · have hcalls : m.stack.calls.length = limit := by rw [← m.stack.depth_eq, hdepth]
    have hbusy : m.stack.isEmpty = false := by
      rw [CallStack.isEmpty, List.isEmpty_eq_false_iff_exists_mem]
      exact List.exists_mem_of_length_pos (by omega)
    refine ⟨f.withBacktrace (m.stack.capture names), ?_, h.cause, .inr ⟨hpos, _, rfl, ?_⟩,
      h.maxDepth⟩
    · simp [Stop.leaving, hnone, CallStack.attach, hbusy]
    · rw [CallStack.capture, List.length_map, hcalls]
  · refine ⟨f, ?_, h.cause, .inr ⟨hpos, b, hb, hlength⟩, h.maxDepth⟩
    simp [Stop.leaving, hb]

namespace Eval

theorem leaving_agree {α : Type} {x y : Eval α} {m : Machine} (names : NameTable)
    (hm : m.Under limit room) (hdepth : 0 < m.stack.depth) (hx : x.Balanced)
    (h : Agree limit room limit? x y) :
    Mirrors (Machine.withLimit limit?) (Eval.leaving names x) (Eval.leaving names y) m ∧
        ((Eval.leaving names x).after m).Under limit (room + 1) ∨
      Parts limit limit? (Eval.leaving names x) (Eval.leaving names y) m := by
  rcases h m hm with ⟨hmirror, hunder⟩ | ⟨f, m₁, hf, hbeyond, hcalls, hmax⟩
  · refine .inl ⟨hmirror.leaving names (fun _ => rfl) fun _ => rfl, ?_⟩
    rw [leaving_after]
    exact hunder.leave (by rw [hx m]; exact hdepth)
  · have hroom := hm.room
    obtain ⟨f', hf', hbeyond'⟩ := hbeyond.leaving (by omega) names
    refine .inr ⟨f', m₁.leave, ?_, hbeyond', ?_, ?_⟩
    · rw [leaving_of_error hf, hf']
    · rw [leaving_after]
      exact hcalls
    · rw [leaving_after]
      exact hmax

end Eval

namespace Context

variable {cx : Context} {run₁ run₂ : Env → Term → Eval Value}

/-- While there is room, a call is entered on both sides. -/
theorem callWith_agree (hi : cx.invoke = World.invoke) (hlimit : ∀ l, limit? = some l → limit < l)
    (hbalanced : ∀ env t, (run₁ env t).Balanced)
    (hrun : ∀ env t, Eval.Agree limit room limit? (run₁ env t) (run₂ env t) ∧ (run₂ env t).Grows)
    (code : Code) (env : Env) (args : List Value) (site : Site) :
    Eval.Agree limit (room + 1) limit? (cx.callWith run₁ code env args site)
      (cx.callWith run₂ code env args site) := by
  intro m hm
  by_cases h : code.arity = args.length
  · have hroom := hm.room
    have hadmits : (m.withLimit limit?).Admits := by
      intro l hl
      have hlt := hlimit l hl
      show m.stack.depth < l
      omega
    have hbody := ((agree_congruence hi limit room limit?).bodyEnv code env args)
    have hboth := (agree_congruence hi limit room limit?).bind hbody fun inner =>
      hrun inner code.body
    have hb : (Eval.bodyEnv code env args >>= fun inner => run₁ inner code.body).Balanced :=
      (balanced_passage cx).body hbalanced code env args
    have hleaving := Eval.leaving_agree cx.names (hm.entered ⟨code.name?, site.span⟩)
      (Nat.succ_pos _) hb hboth.1
    have h₁ := cx.callWith_entered run₁ env site h hm.admits
    have h₂ := cx.callWith_entered run₂ env site h hadmits
    rcases hleaving with ⟨hmirror, hunder⟩ | ⟨f, m₁, hf, hbeyond, hcalls, hmax⟩
    · refine .inl ⟨?_, ?_⟩
      · unfold Eval.Mirrors
        rw [h₁, h₂]
        exact hmirror
      · rw [Eval.after_congr h₁]
        exact hunder
    · unfold Eval.Parts
      rw [Eval.after_congr h₂]
      exact .inr ⟨f, m₁, h₁.trans hf, hbeyond, hcalls, hmax⟩
  · rw [cx.callWith_wrongCount run₁ env site h, cx.callWith_wrongCount run₂ env site h]
    exact .inl ⟨rfl, hm⟩

/-- Without room, the call that is refused on one side is entered on the other. -/
theorem callWith_parts (hi : cx.invoke = World.invoke) (hlimit : ∀ l, limit? = some l → limit < l)
    (hrun : ∀ env t, (run₂ env t).Grows)
    (code : Code) (env : Env) (args : List Value) (site : Site) :
    Eval.Agree limit 0 limit? (cx.callWith run₁ code env args site)
      (cx.callWith run₂ code env args site) := by
  intro m hm
  by_cases h : code.arity = args.length
  · have hroom := hm.room
    have hadmits : (m.withLimit limit?).Admits := by
      intro l hl
      have hlt := hlimit l hl
      show m.stack.depth < l
      omega
    have h₁ := cx.callWith_full run₁ env site h hm.limited (by omega)
    have h₂ := cx.callWith_entered run₂ env site h hadmits
    have hbody : (Eval.bodyEnv code env args >>= fun inner => run₂ inner code.body).Grows :=
      (grows_passage hi).body hrun code env args
    have hlater := (hbody ((m.withLimit limit?).entered ⟨code.name?, site.span⟩)).leave
    rw [← Eval.leaving_after cx.names] at hlater
    unfold Eval.Parts
    rw [Eval.after_congr h₂]
    obtain ⟨c, hc, hdeep, hbounded⟩ := hm.counts
    -- The entry of the call is counted before its body runs.
    have hentry : ((m.withLimit limit?).entered ⟨code.name?, site.span⟩).counters =
        some (c.application (m.stack.depth + 1)) := by
      rw [Machine.entered, Machine.withLimit, hc]
      rfl
    obtain ⟨c', hc', hle⟩ := hlater.maxDepth _ hentry
    have hdepth : m.stack.depth + 1 ≤ (c.application (m.stack.depth + 1)).maxDepth :=
      Nat.le_max_right _ _
    exact .inr ⟨_, m, h₁, ⟨rfl, .inl ⟨rfl, by omega⟩, c, hc, by omega⟩, hlater.calls, c', hc',
      by omega⟩
  · rw [cx.callWith_wrongCount run₁ env site h, cx.callWith_wrongCount run₂ env site h]
    exact .inl ⟨rfl, hm⟩

theorem callWithin_agree (hi : cx.invoke = World.invoke)
    (hlimit : ∀ l, limit? = some l → limit < l) {room₁ room₂ : Nat} (hroom : room₁ ≤ room₂)
    (l₁ l₂ : Nat) (code : Code) (env : Env) (args : List Value) (site : Site) :
    Eval.Agree limit room₁ limit? (cx.callWithin room₁ l₁ code env args site)
      (cx.callWithin room₂ l₂ code env args site) := by
  induction room₁ generalizing room₂ l₁ l₂ code env args site with
  | zero =>
    cases room₂ with
    | zero =>
      simp only [callWithin]
      refine callWith_parts hi hlimit (fun env t => ?_) code env args site
      exact fun m => .refl m
    | succ room₂ =>
      simp only [callWithin]
      refine callWith_parts hi hlimit (fun env t => ?_) code env args site
      exact (grows_passage hi).evalWith room₂ _ env t
  | succ room₁ ih =>
    obtain ⟨k, rfl⟩ : ∃ k, room₂ = k + 1 := ⟨room₂ - 1, by omega⟩
    refine callWith_agree hi hlimit (fun env t => ?_) (fun env t => ?_) code env args site
    · exact evalWith_balanced cx room₁ _ env t
    · refine (agree_congruence hi limit room₁ limit?).evalWith ?_ _ _ env t
      intro l k' code env args site
      exact ⟨ih (by omega) l k' code env args site,
        (grows_passage hi).callWithin k k' code env args site⟩

/-- **Evaluation under the limit agrees with evaluation beyond it** until it refuses a call. -/
theorem evalWith_agree (hi : cx.invoke = World.invoke)
    (hlimit : ∀ l, limit? = some l → limit < l) {room₁ room₂ : Nat} (hroom : room₁ ≤ room₂)
    (env : Env) (t : Term) :
    Eval.Agree limit room₁ limit? (t.evalWith cx (cx.callWithin room₁) 0 env)
      (t.evalWith cx (cx.callWithin room₂) 0 env) := by
  refine ((agree_congruence hi limit room₁ limit?).evalWith ?_ 0 0 env t).1
  intro l k code env args site
  exact ⟨callWithin_agree hi hlimit hroom l k code env args site,
    (grows_passage hi).callWithin room₂ k code env args site⟩

end Context

end CapLang
