import CapLang.Proofs.Stops
import CapLang.Runner
import Mathlib.Data.Set.Finite.Lattice

/-!
# Evaluation under a limit ends

A job leads to finitely many jobs directly (`Calls.finite`), because what one part gives decides
what is done next.  Where calls have a limit, each of these jobs is smaller: either fewer calls
remain, or as many remain and the term is smaller (`Calls.smaller`).  A return to fewer calls does
no harm, since the measure is that of the machine on which a job is begun and a nested call leaves
the stack as it was.  So the tree of jobs is finite (`ends_of_limit`), and evaluation, which follows
exactly as many nested calls as the limit leaves, is never exhausted (`eval_settles`).
-/
namespace CapLang

/-- How many more calls a machine admits under a limit. -/
def Machine.remaining (limit : Nat) (m : Machine) : Nat := limit - m.stack.depth

namespace Context

variable {cx : Context} {env : Env}

/-! ## Finitely many jobs -/

/-- What a part gives decides what comes next. -/
theorem finite_next {α : Type} {gives : α → Machine → Prop}
    (unique : ∀ {a b m₁ m₂}, gives a m₁ → gives b m₂ → a = b ∧ m₁ = m₂)
    {next : α → Machine → Job → Prop} (h : ∀ a m', {k | next a m' k}.Finite) :
    {k | ∃ a m', gives a m' ∧ next a m' k}.Finite := by
  by_cases hgives : ∃ a m', gives a m'
  · obtain ⟨a, m', ha⟩ := hgives
    refine (h a m').subset ?_
    rintro k ⟨b, m'', hb, hk⟩
    obtain ⟨rfl, rfl⟩ := unique ha hb
    exact hk
  · refine Set.finite_empty.subset ?_
    rintro k ⟨a, m', ha, -⟩
    exact absurd ⟨a, m', ha⟩ hgives

theorem finite_turns (cx : Context) (env : Env) (ts : List Term) (m : Machine) :
    {k | ∃ u m', cx.Turn env ts m u m' ∧ k = Job.eval env u m'}.Finite := by
  induction ts generalizing m with
  | nil =>
    refine Set.finite_empty.subset ?_
    rintro k ⟨u, m', h, -⟩
    cases h
  | cons t ts ih =>
    have hlater : {k | ∃ v m₁, cx.Gives env t m v m₁ ∧
        ∃ u m', cx.Turn env ts m₁ u m' ∧ k = Job.eval env u m'}.Finite :=
      finite_next Gives.unique fun _ => ih
    refine (hlater.insert (Job.eval env t m)).subset ?_
    rintro k ⟨u, m', h, rfl⟩
    cases h with
    | now => exact .inl rfl
    | later value rest => exact .inr ⟨_, _, value, _, _, rest, rfl⟩

theorem finite_eval (env : Env) (t : Term) (m : Machine) :
    {k | ∃ new, cx.Calls (.eval env t m) new k}.Finite := by
  cases t with
  | literal span l => exact Set.finite_empty.subset (by rintro k ⟨new, h⟩; cases h)
  | var span x => exact Set.finite_empty.subset (by rintro k ⟨new, h⟩; cases h)
  | lambda span id header body => exact Set.finite_empty.subset (by rintro k ⟨new, h⟩; cases h)
  | app span func args =>
    have hargs : {k | ∃ v m₁, cx.Gives env func (m.counted .term) v m₁ ∧
        ∃ u m₂, cx.Turn env args m₁ u m₂ ∧ k = Job.eval env u m₂}.Finite :=
      finite_next Gives.unique fun _ => finite_turns cx env args
    -- There is at most one call, since the function and the arguments are determined.
    have hcall : {k | ∃ v m₁, cx.Gives env func (m.counted .term) v m₁ ∧
        ∃ values m₂, cx.GivesAll env args m₁ values m₂ ∧ ∃ code closed, v = .closure code closed ∧
          k = Job.apply code closed values (.ofTerm (.app span func args)) m₂}.Finite := by
      refine finite_next Gives.unique fun v m₁ => finite_next GivesAll.unique fun values m₂ =>
        Set.Subsingleton.finite ?_
      rintro k ⟨code, closed, rfl, rfl⟩ k' ⟨code', closed', hv, rfl⟩
      cases hv
      rfl
    refine ((hargs.union hcall).insert (Job.eval env func (m.counted .term))).subset ?_
    rintro k ⟨new, h⟩
    cases h with
    | func => exact .inl rfl
    | argument callee turn => exact .inr (.inl ⟨_, _, callee, _, _, turn, rfl⟩)
    | call callee arguments =>
      exact .inr (.inr ⟨_, _, callee, _, _, arguments, _, _, rfl, rfl⟩)
  | letIn span x value body =>
    have hbody : {k | ∃ v m₁, cx.Gives env value (m.counted .term) v m₁ ∧
        k = Job.eval (env.extendMany m₁.world.stamp.1 [(x, v)]) body m₁.stamped}.Finite :=
      finite_next Gives.unique fun _ _ => Set.finite_singleton _
    refine (hbody.insert (Job.eval env value (m.counted .term))).subset ?_
    rintro k ⟨new, h⟩
    cases h with
    | letValue => exact .inl rfl
    | letBody bound => exact .inr ⟨_, _, bound, rfl⟩
  | letRec span id functions body =>
    refine (Set.finite_singleton (Job.eval (env.bindGroup m.world.stamp.1 id functions) body
      (m.counted .term).stamped)).subset ?_
    rintro k ⟨new, h⟩
    cases h
    rfl
  | ifThenElse span cond thenBranch elseBranch =>
    have hbranch : {k | ∃ v m₁, cx.Gives env cond (m.counted .term) v m₁ ∧ ∃ b, v = .bool b ∧
        k = Job.eval env (if b then thenBranch else elseBranch) m₁}.Finite := by
      refine finite_next Gives.unique fun v m₁ => Set.Subsingleton.finite ?_
      rintro k ⟨b, rfl, rfl⟩ k' ⟨b', hv, rfl⟩
      cases hv
      rfl
    refine (hbranch.insert (Job.eval env cond (m.counted .term))).subset ?_
    rintro k ⟨new, h⟩
    cases h with
    | condition => exact .inl rfl
    | branch condition => exact .inr ⟨_, _, condition, _, rfl, rfl⟩
  | caseOf span scrutinee alternatives =>
    have hbody : {k | ∃ v m₁, cx.Gives env scrutinee (m.counted .term) v m₁ ∧
        ∃ bindings body, Term.choose v alternatives = some (bindings, body) ∧
          k = Job.eval (env.extendMany m₁.world.stamp.1 bindings) body
            (m₁.counted .case).stamped}.Finite := by
      refine finite_next Gives.unique fun v m₁ => Set.Subsingleton.finite ?_
      rintro k ⟨bindings, body, hv, rfl⟩ k' ⟨bindings', body', hv', rfl⟩
      rw [hv] at hv'
      cases hv'
      rfl
    refine (hbody.insert (Job.eval env scrutinee (m.counted .term))).subset ?_
    rintro k ⟨new, h⟩
    cases h with
    | scrutinee => exact .inl rfl
    | alternative value chosen => exact .inr ⟨_, _, value, _, _, chosen, rfl⟩
  | record span fields =>
    refine (finite_turns cx env (fields.map (·.2)) (m.counted .term)).subset ?_
    rintro k ⟨new, h⟩
    cases h with
    | fieldValue turn => exact ⟨_, _, turn, rfl⟩
  | field span base x =>
    refine (Set.finite_singleton (Job.eval env base (m.counted .term))).subset ?_
    rintro k ⟨new, h⟩
    cases h
    rfl
  | variant span tag payload =>
    refine (Set.finite_singleton (Job.eval env payload (m.counted .term))).subset ?_
    rintro k ⟨new, h⟩
    cases h
    rfl
  | prim span op args =>
    refine (finite_turns cx env args (m.counted .term)).subset ?_
    rintro k ⟨new, h⟩
    cases h with
    | operand turn => exact ⟨_, _, turn, rfl⟩

theorem finite_apply (code : Code) (env : Env) (args : List Value) (site : Site) (m : Machine) :
    {k | ∃ new, cx.Calls (.apply code env args site m) new k}.Finite := by
  refine Set.Subsingleton.finite ?_
  rintro k ⟨new, h⟩ k' ⟨new', h'⟩
  cases h with
  | body count admits bound =>
    cases h' with
    | body count' admits' bound' =>
      rw [bound] at bound'
      cases bound'
      rfl

/-- **A job leads to finitely many jobs directly.** -/
theorem Calls.finite (j : Job) : {k | ∃ new, cx.Calls j new k}.Finite := by
  cases j with
  | eval env t m => exact finite_eval env t m
  | apply code env args site m => exact finite_apply code env args site m

/-! ## Smaller jobs -/

variable {j k : Job} {new : List Call} {limit : Nat}

/-- **Every job that a job leads to directly is smaller**: fewer calls remain, or as many remain
and the term is smaller. -/
theorem Calls.smaller (h : cx.Calls j new k) (hl : j.machine.stack.limit? = some limit) :
    k.machine.remaining limit < j.machine.remaining limit ∨
      k.machine.remaining limit = j.machine.remaining limit ∧ k.size < j.size := by
  unfold Machine.remaining
  rcases h.stays_or_enters with ⟨-, hs, hsize⟩ | ⟨c, -, hs, admits⟩
  · rw [hs]
    exact .inr ⟨rfl, hsize⟩
  · have hlt := admits limit hl
    have hdepth : (j.machine.stack.add c).depth = j.machine.stack.depth + 1 := rfl
    rw [hs, hdepth]
    omega

variable (cx)

/-- **The work of a job ends**: it leads to finitely many jobs directly, and the work of each of
them ends. -/
inductive Ends : Job → Prop
  | intro {j : Job} (finite : {k | ∃ new, cx.Calls j new k}.Finite)
      (ends : ∀ {new k}, cx.Calls j new k → Ends k) : Ends j

variable {cx}

/-- **Under a limit the work of every job ends.** -/
theorem ends_of_limit (j : Job) (hl : j.machine.stack.limit? = some limit) : cx.Ends j :=
  .intro (Calls.finite j) fun {_ k} h => ends_of_limit k (h.stack.2.trans hl)
termination_by (j.machine.remaining limit, j.size)
decreasing_by
  rcases h.smaller hl with hlt | ⟨heq, hlt⟩
  · exact .left _ _ hlt
  · rw [heq]
    exact .right _ hlt

/-- What ends has led to finitely many jobs in all. -/
theorem Ends.finite {j : Job} (h : cx.Ends j) : {k | ∃ active, cx.Within j active k}.Finite := by
  induction h with
  | @intro j finite ends ih =>
    have hinner : (⋃ k ∈ {k | ∃ new, cx.Calls j new k},
        {l | ∃ active, cx.Within k active l}).Finite :=
      finite.biUnion fun k ⟨new, hk⟩ => ih hk
    refine (hinner.insert j).subset ?_
    rintro l ⟨active, hl⟩
    cases hl with
    | refl => exact .inl rfl
    | head step rest => exact .inr (Set.mem_biUnion ⟨_, step⟩ ⟨_, rest⟩)

/-! ## No exhaustion -/

variable {m m' : Machine} {e : Stop}

/-- **Under a limit no term is exhausted**, since its stop would come from a part with as much room
or from a body with less. -/
theorem eval_not_exhausted (p : Nat) (env : Env) (t : Term) (m : Machine)
    (hl : m.stack.limit? = some limit) (m' : Machine) :
    cx.eval p env t m ≠ .error .exhausted m' := by
  revert hl m'
  induction p, env, t, m using eval_induction with
  | step p env t m ih =>
    intro hl m' h
    cases eval_stop h with
    | detected detects raised => cases raised
    | @part inner u m₁ step stops =>
      have hl₁ : m₁.stack.limit? = some limit := step.stack.2.trans hl
      obtain ⟨hs, hsize⟩ := step.stays
      exact ih p inner u m₁ (.inr ⟨congrArg (·.room p) hs, hsize⟩) hl₁ m' stops
    | @call code closed values m₁ step count admits stops =>
      have hl₁ : m₁.stack.limit? = some limit := step.stack.2.trans hl
      rcases apply_stop stops with ⟨cause, -, hraise⟩ | ⟨inner, m₂, e₁, m₃, hbody, hlt, hstop, he⟩ |
        ⟨hnone, -⟩
      · cases hraise
      · cases e₁ with
        | fault f => cases he
        | exhausted =>
          refine ih (p - 1) inner code.body m₂ (.inl ?_) (hbody.stack.2.trans hl₁) m₃ hstop
          have hs : m₁.stack = m.stack := step.stays.1
          rwa [hs] at hlt
      -- Only without a limit is a call not followed for want of room.
      · rw [hl₁] at hnone
        cases hnone

theorem apply_not_exhausted (p : Nat) (code : Code) (env : Env) (args : List Value) (site : Site)
    (hl : m.stack.limit? = some limit) (m' : Machine) :
    cx.apply p code env args site m ≠ .error .exhausted m' := by
  intro h
  rcases apply_stop h with ⟨cause, -, hraise⟩ | ⟨inner, m₁, e₁, m₂, hbody, -, hstop, he⟩ |
    ⟨hnone, -⟩
  · cases hraise
  · cases e₁ with
    | fault f => cases he
    | exhausted =>
      exact eval_not_exhausted (p - 1) inner code.body m₁ (hbody.stack.2.trans hl) m₂ hstop
  · rw [hl] at hnone
    cases hnone

end Context

/-- A step that is not exhausted has a result or faults. -/
theorem Eval.settles {α : Type} {x : Eval α} {m : Machine}
    (h : ∀ m', x m ≠ .error .exhausted m') :
    (∃ a m', x m = .ok a m') ∨ ∃ f m', x m = .error (.fault f) m' := by
  cases hx : x m with
  | ok a m' => exact .inl ⟨a, m', rfl⟩
  | error e m' =>
    cases e with
    | fault f => exact .inr ⟨f, m', rfl⟩
    | exhausted => exact absurd hx (h m')

/-- **Evaluation under a limit ends.**  Whatever the machine, the environment and the closures in
it, a term and a call each come to a value or a fault, whichever patience is given, and the work
that leads there is a finite tree of jobs. -/
theorem bounded_evaluation_ends (cx : Context) {m : Machine} {limit : Nat}
    (hl : m.stack.limit? = some limit) :
    (∀ p env t, ((∃ v m', cx.eval p env t m = .ok v m') ∨
        ∃ f m', cx.eval p env t m = .error (.fault f) m') ∧ cx.Ends (.eval env t m)) ∧
    (∀ p code env args site, ((∃ v m', cx.apply p code env args site m = .ok v m') ∨
        ∃ f m', cx.apply p code env args site m = .error (.fault f) m') ∧
      cx.Ends (.apply code env args site m)) := by
  refine ⟨fun p env t => ⟨?_, Context.ends_of_limit _ hl⟩,
    fun p code env args site => ⟨?_, Context.ends_of_limit _ hl⟩⟩
  · exact Eval.settles fun m' => Context.eval_not_exhausted p env t m hl m'
  · exact Eval.settles fun m' => Context.apply_not_exhausted p code env args site hl m'

/-- The program that applies a function to itself without end, under a limit of two calls. -/
theorem self_application_ends :
    let cx : Context := ⟨.initial, .empty, World.invoke⟩
    let m : Machine := .start (.bounded 2) true (.ofInput ByteArray.empty)
    m.stack.limit? = some 2 ∧
      cx.Ends (.eval .empty (.app none SelfApplication.twice [SelfApplication.twice]) m) :=
  ⟨rfl, ((bounded_evaluation_ends _ rfl).1 0 _ _).2⟩

end CapLang
