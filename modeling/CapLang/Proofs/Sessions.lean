import CapLang.Proofs.Counting
import CapLang.Proofs.Unfolding

/-!
# Sessions

A host may ask one machine for one thing after the other, terms to evaluate and functions to call.
Whatever comes of a request, the machine is then as good as new: no call is under way, because
evaluation is balanced, and what has been counted so far has no influence on what follows
(`Context.serve_recounted`).  So each request is answered as a new machine would answer it in the
world as it then is, and the counts add up (`requests_served_afresh`).
-/
namespace CapLang

/-- What a host asks of a machine. -/
inductive Request
  /-- The value of a term. -/
  | eval (env : Env) (t : Term)
  /-- The value of a call, as if made by a term at the site. -/
  | apply (code : Code) (env : Env) (args : List Value) (site : Site)

/-- A request, with the machine that served it, the answer, and the machine after it. -/
structure Served where
  request : Request
  before : Machine
  outcome : Outcome
  after : Machine

namespace Context

/-- The step that a request asks for. -/
def serve (cx : Context) (patience : Nat) : Request → Eval Value
  | .eval env t => cx.eval patience env t
  | .apply code env args site => cx.apply patience code env args site

/-- A machine serves a request. -/
def answer (cx : Context) (patience : Nat) (r : Request) (m : Machine) : Served :=
  match cx.serve patience r m with
  | .ok v m' => ⟨r, m, .ok v, m'⟩
  | .error e m' => ⟨r, m, .error e, m'⟩

/-- One machine serves requests one after the other. A fault keeps none of the later ones from
being served. -/
def session (cx : Context) (patience : Nat) : List Request → Machine → List Served × Machine
  | [], m => ([], m)
  | r :: rs, m =>
    let first := cx.answer patience r m
    let (rest, final) := cx.session patience rs first.after
    (first :: rest, final)

theorem session_cons (cx : Context) (p : Nat) (r : Request) (rs : List Request) (m : Machine) :
    cx.session p (r :: rs) m =
      (cx.answer p r m :: (cx.session p rs (cx.answer p r m).after).1,
        (cx.session p rs (cx.answer p r m).after).2) := rfl

/-- A request by itself, served by a new machine that counts, or does not. -/
def alone (cx : Context) (patience : Nat) (mode : Mode) (counting : Bool) (s : Served) : Served :=
  cx.answer patience s.request (.start mode counting s.before.world)

variable (cx : Context) (p : Nat)

theorem serve_balanced (r : Request) : (cx.serve p r).Balanced := by
  cases r with
  | eval env t => exact cx.eval_balanced p env t
  | apply code env args site => exact cx.apply_balanced p code env args site

/-- Requests are served alike whatever has been counted before. -/
theorem serve_recounted {h : Option Counters → Option Counters} (hh : Counters.Steady h)
    (r : Request) (m : Machine) :
    Eval.Mirrors (Machine.recounted h) (cx.serve p r) (cx.serve p r) m := by
  cases r with
  | eval env t => exact cx.eval_recounted hh p env t m
  | apply code env args site => exact cx.apply_recounted hh p code env args site m

theorem answer_before (r : Request) (m : Machine) :
    (cx.answer p r m).request = r ∧ (cx.answer p r m).before = m := by
  unfold answer
  split <;> exact ⟨rfl, rfl⟩

theorem answer_after (r : Request) (m : Machine) :
    (cx.answer p r m).after = (cx.serve p r).after m := by
  unfold answer
  cases h : cx.serve p r m with
  | ok v m' => rw [Eval.after_of_ok h]
  | error e m' => rw [Eval.after_of_error h]

/-- **No call is under way after a request** that was not under way before. -/
theorem answer_stack (r : Request) (m : Machine) : (cx.answer p r m).after.stack = m.stack := by
  rw [cx.answer_after p r, cx.serve_balanced p r]

/-- With other counters the answer is the same, and so is the machine after it but for these. -/
theorem answer_recounted {h : Option Counters → Option Counters} (hh : Counters.Steady h)
    (r : Request) (m : Machine) :
    (cx.answer p r (m.recounted h)).outcome = (cx.answer p r m).outcome ∧
      (cx.answer p r (m.recounted h)).after = (cx.answer p r m).after.recounted h := by
  have hmirror := cx.serve_recounted p hh r m
  unfold answer
  cases hserve : cx.serve p r m with
  | ok v m' =>
    rw [hmirror.of_ok hserve]
    exact ⟨rfl, rfl⟩
  | error e m' =>
    rw [hmirror.of_error hserve]
    exact ⟨rfl, rfl⟩

end Context

/-! ## Counts that add up -/

namespace Counters

theorem zero_merge (c : Counters) : zero.merge c = c := by
  simp [merge, zero]

theorem merge_zero (c : Counters) : c.merge zero = c := by
  simp [merge, zero]

theorem merge_assoc (c d e : Counters) : (c.merge d).merge e = c.merge (d.merge e) := by
  simp [merge, Nat.add_assoc, Nat.max_assoc]

/-- To add earlier counts goes along with counting. -/
theorem steady_merge (c : Counters) : Steady (Option.map c.merge) where
  term d := by cases d <;> simp [merge, term, Nat.add_assoc]
  application depth d := by cases d <;> simp [merge, application, Nat.add_assoc, Nat.max_assoc]
  primitive d := by cases d <;> simp [merge, primitive, Nat.add_assoc]
  case d := by cases d <;> simp [merge, case, Nat.add_assoc]

theorem reading_reading (c : Counters) : c.reading.reading = c.reading := by
  simp [reading]

/-- Merged counts read as what they read separately does when merged. -/
theorem reading_merge (c d : Counters) :
    (c.merge d).reading = (c.reading.merge d.reading).reading := by
  simp [merge, reading, Nat.add_mod]

/-- The counts of several runs together. -/
def total (counts : List Counters) : Counters := counts.foldr merge zero

/-- A host that only has the readings of several runs reads the same from these. -/
theorem reading_total (counts : List Counters) :
    (total counts).reading =
      (counts.map reading).foldr (fun c d => (c.merge d).reading) zero := by
  induction counts with
  | nil => rfl
  | cons c rest ih =>
    show (c.merge (total rest)).reading = (c.reading.merge _).reading
    rw [← ih, reading_merge c (total rest), reading_merge c.reading (total rest).reading,
      reading_reading, reading_reading]

end Counters

/-! ## Sessions -/

/-- The machine as a new one would be in this world, had so much been counted already. -/
def Machine.resumed (mode : Mode) (counting : Bool) (counts : Counters) (w : World) : Machine :=
  (Machine.start mode counting w).recounted (Option.map counts.merge)

/-- What has been counted, or nothing without counters. -/
def Machine.counts (m : Machine) : Counters := m.counters.getD .zero

namespace Machine

variable (mode : Mode) (counting : Bool)

theorem resumed_zero (w : World) : resumed mode counting .zero w = .start mode counting w := by
  cases counting with
  | true => exact congrArg (fun c => Machine.mk _ (some c) w) (Counters.merge_zero .zero)
  | false => rfl

theorem resumed_recounted (c d : Counters) (w : World) :
    (resumed mode counting d w).recounted (Option.map c.merge) =
      resumed mode counting (c.merge d) w := by
  cases counting with
  | true => exact congrArg (fun c => Machine.mk _ (some c) w) (Counters.merge_assoc c d .zero).symm
  | false => rfl

theorem resumed_counters (c : Counters) (w : World) :
    (resumed mode counting c w).counters = if counting then some c else none := by
  cases counting with
  | true => exact congrArg some c.merge_zero
  | false => rfl

end Machine

/-- A machine that counts goes on counting, and one that does not never begins to. -/
theorem counting_passage (cx : Context) :
    Passage cx fun m m' => m'.counters.isSome = m.counters.isSome where
  refl _ := rfl
  trans h₁ h₂ := h₂.trans h₁
  term _ := Option.isSome_map
  case _ := Option.isSome_map
  primitive _ := Option.isSome_map
  stamp _ := rfl
  operate _ _ _ := rfl
  call _ h := h.trans Option.isSome_map

namespace Context

variable (cx : Context) (p : Nat) (mode : Mode) (counting : Bool)

theorem serve_counting (r : Request) :
    (cx.serve p r).Passes fun m m' => m'.counters.isSome = m.counters.isSome := by
  intro m
  cases r with
  | eval env t => exact (counting_passage cx).evalWith (m.stack.room p) 0 env t m
  | apply code env args site =>
    exact (counting_passage cx).callWithin (m.stack.room p) 0 code env args site m

/-- A new machine that has served a request is a new machine again, but for what it counted. -/
theorem answer_start (r : Request) (w : World) :
    let s := cx.answer p r (.start mode counting w)
    s.after = .resumed mode counting s.after.counts s.after.world := by
  intro s
  have hstack : s.after.stack = .empty mode.limit? := cx.answer_stack p r _
  have hcounting : s.after.counters.isSome = counting := by
    rw [cx.answer_after p r, cx.serve_counting p r]
    cases counting <;> rfl
  rcases hafter : s.after with ⟨stack, counters, world⟩
  rw [hafter] at hstack hcounting
  cases counters with
  | none =>
    cases hcounting
    show Machine.mk stack none world = ⟨.empty mode.limit?, none, world⟩
    rw [show stack = _ from hstack]
  | some c =>
    cases hcounting
    show Machine.mk stack (some c) world = ⟨.empty mode.limit?, some (c.merge .zero), world⟩
    rw [show stack = _ from hstack, c.merge_zero]

/-- **One request** is answered as by a new machine, whatever has been counted before it. -/
theorem answer_resumed (c : Counters) (r : Request) (w : World) :
    let s := cx.answer p r (.resumed mode counting c w)
    let fresh := cx.answer p r (.start mode counting w)
    s.outcome = fresh.outcome ∧ s.after.world = fresh.after.world ∧
      s.after = .resumed mode counting (c.merge fresh.after.counts) s.after.world := by
  intro s fresh
  obtain ⟨houtcome, hafter⟩ := cx.answer_recounted p c.steady_merge r (.start mode counting w)
  change s.outcome = fresh.outcome at houtcome
  change s.after = fresh.after.recounted (Option.map c.merge) at hafter
  have hworld : s.after.world = fresh.after.world := by rw [hafter]; rfl
  have hfresh : fresh.after = .resumed mode counting fresh.after.counts fresh.after.world :=
    cx.answer_start p mode counting r w
  refine ⟨houtcome, hworld, ?_⟩
  calc s.after = fresh.after.recounted (Option.map c.merge) := hafter
    _ = (Machine.resumed mode counting fresh.after.counts fresh.after.world).recounted
          (Option.map c.merge) := by rw [← hfresh]
    _ = .resumed mode counting (c.merge fresh.after.counts) fresh.after.world :=
        Machine.resumed_recounted ..
    _ = .resumed mode counting (c.merge fresh.after.counts) s.after.world := by rw [hworld]

/-- The served request is answered as it would be alone, and its call stack is left empty. -/
structure Afresh (s : Served) : Prop where
  before : s.before.stack = .empty mode.limit?
  after : s.after.stack = s.before.stack
  outcome : s.outcome = (cx.alone p mode counting s).outcome
  world : s.after.world = (cx.alone p mode counting s).after.world

/-- What so many requests count by themselves. -/
def countsAlone (served : List Served) : Counters :=
  .total (served.map fun s => (cx.alone p mode counting s).after.counts)

/-- **A session** is a sequence of requests served afresh, whatever has been counted before it. -/
theorem session_resumed (c : Counters) (requests : List Request) (w : World) :
    ∃ served w', cx.session p requests (.resumed mode counting c w) =
        (served, .resumed mode counting (c.merge (cx.countsAlone p mode counting served)) w') ∧
      served.map (·.request) = requests ∧ ∀ s ∈ served, cx.Afresh p mode counting s := by
  -- The induction is on the requests, for any counts so far: these are all that builds up.
  induction requests generalizing c w with
  | nil =>
    refine ⟨[], w, ?_, rfl, List.forall_mem_nil _⟩
    show _ = ([], Machine.resumed mode counting (c.merge .zero) w)
    rw [c.merge_zero]
    rfl
  | cons r rest ih =>
    have hstep := cx.answer_resumed p mode counting c r w
    have hrequest := cx.answer_before p r (.resumed mode counting c w)
    have hstack := cx.answer_stack p r (.resumed mode counting c w)
    rw [session_cons]
    generalize cx.answer p r (.resumed mode counting c w) = first at hstep hrequest hstack
    obtain ⟨houtcome, hworld, hafter⟩ := hstep
    obtain ⟨rfl, hbefore⟩ := hrequest
    have halone : cx.alone p mode counting first =
        cx.answer p first.request (.start mode counting w) := by
      rw [alone, hbefore]
      rfl
    rw [← halone] at houtcome hworld hafter
    have hafresh : cx.Afresh p mode counting first :=
      ⟨by rw [hbefore]; rfl, by rw [hbefore, hstack], houtcome, hworld⟩
    obtain ⟨served, w', hsession, hrequests, hserved⟩ :=
      ih (c.merge (cx.alone p mode counting first).after.counts) first.after.world
    rw [← hafter] at hsession
    refine ⟨first :: served, w', ?_, by rw [List.map_cons, hrequests],
      List.forall_mem_cons.mpr ⟨hafresh, hserved⟩⟩
    rw [hsession, Counters.merge_assoc]
    rfl

end Context

/-- **A machine can be reused after any outcome.**  In a session each request finds no call under
way and leaves none; it is answered, and changes the world, as if a new machine had served it in the
world that it found; and what the machine has counted in the end is what new machines would have
counted for the requests, merged. -/
theorem requests_served_afresh (cx : Context) (p : Nat) (mode : Mode) (counting : Bool)
    (requests : List Request) (w : World) :
    let (served, final) := cx.session p requests (.start mode counting w)
    served.map (·.request) = requests ∧
    (∀ s ∈ served, cx.Afresh p mode counting s) ∧
    final.stack = .empty mode.limit? ∧
    final.counters = (if counting then some (cx.countsAlone p mode counting served) else none) ∧
    (cx.countsAlone p mode counting served).reading =
      (served.map fun s => (cx.alone p mode counting s).after.counts.reading).foldr
        (fun c d => (c.merge d).reading) .zero := by
  obtain ⟨served, w', hsession, hrequests, hserved⟩ :=
    cx.session_resumed p mode counting .zero requests w
  rw [Machine.resumed_zero, Counters.zero_merge] at hsession
  rw [hsession]
  refine ⟨hrequests, hserved, rfl, Machine.resumed_counters .., ?_⟩
  rw [Context.countsAlone, Counters.reading_total, List.map_map]
  rfl

end CapLang
