import CapLang.Proofs.Origins
import CapLang.Proofs.Parts

/-!
# Invariants of evaluation

An invariant says which values are good, which jobs may come up, and what holds of the world.  A
good value may get into the environment of any term, so all its parts have to be good.  `Tracking`
lists what has to be shown of each form of term and of the operators, where the jobs that come up
are tracked from step to step; then every value is good in all its parts (`Tracking.eval`), and so
is what every job within a tracked job is given (`Tracking.within`), however long ago the functions
that it calls were made.  `Invariant` is the case in which the term and its environment decide.
-/
namespace CapLang

/-- All values that the job is given are good. -/
def Job.Good (good : Value → Prop) : Job → Prop
  | .eval env _ _ => env.All good
  | .apply code env args _ _ => (Value.closure code env).All good ∧ ∀ v ∈ args, v.All good

/-- **An invariant that follows the jobs**: `good` values, the jobs that may be `reached`, and what
`holds` of the world. -/
structure Tracking (cx : Context) (good : Value → Prop) (reached : Job → Prop)
    (holds : World → Prop) : Prop where
  step : ∀ {j new k}, reached j → j.Good good → cx.Calls j new k → reached k
  literal : ∀ l, good (.ofLiteral l)
  lambda : ∀ {env span id header body m}, reached (.eval env (.lambda span id header body) m) →
    good (.closure (.lambda id header body) env)
  group : ∀ {env span id functions body m},
    reached (.eval env (.letRec span id functions body) m) →
      ∀ i, i < functions.length → good (.closure (.member id functions i) env)
  /-- When a function of a group is called, the whole group is bound. -/
  members : ∀ {id functions i env}, good (.closure (.member id functions i) env) →
    ∀ k, k < functions.length → good (.closure (.member id functions k) env)
  record : ∀ {env span fields m}, reached (.eval env (.record span fields) m) →
    ∀ stamp values, values.length = fields.length →
      good (.ofFields stamp ((fields.map (·.1)).zip values))
  variant : ∀ {env span tag payload m}, reached (.eval env (.variant span tag payload) m) →
    ∀ v, good (.variant tag v)
  stamp : ∀ w, holds w → holds w.stamp.2
  operator : ∀ {env span op args m} {values : List Value} {w w' : World}
    {r : Except Fault Value}, reached (.eval env (.prim span op args) m) →
      (∀ v ∈ values, v.All good) → holds w → op.apply cx values w = (r, w') →
        holds w' ∧ ∀ v, r = .ok v → v.All good

namespace Tracking

variable {cx : Context} {good : Value → Prop} {reached : Job → Prop} {holds : World → Prop}
  (tr : Tracking cx good reached holds)
include tr

/-- The body of a good function begins with good values only. -/
theorem entered {code : Code} {env inner : Env} {args : List Value} {site : Site} {u : Term}
    {new : List Call} {m m₁ : Machine}
    (hgood : (Job.apply code env args site m).Good good) (hm : holds m.world)
    (h : cx.Calls (.apply code env args site m) new (.eval inner u m₁)) :
    inner.All good ∧ holds m₁.world := by
  obtain ⟨hf, ha⟩ := hgood
  obtain ⟨hcode, henv⟩ := Value.all_closure.mp hf
  have hargs : ∀ b ∈ code.params.zip args, b.2.All good :=
    fun b hb => ha b.2 (List.of_mem_zip hb).2
  cases h with
  | body count admits bound =>
    cases code with
    | lambda id header body =>
      cases bound
      exact ⟨henv.extendMany _ hargs, tr.stamp _ hm⟩
    | member id functions i =>
      cases bound
      exact ⟨(henv.bindGroup _ (tr.members hcode)).extendMany _ hargs,
        tr.stamp _ (tr.stamp _ hm)⟩

/-- **The value of a term that is reached is good in all its parts.** -/
theorem eval (p : Nat) (env : Env) (t : Term) (m : Machine) (hr : reached (.eval env t m))
    (hg : env.All good) (hm : holds m.world) {v : Value} {m' : Machine}
    (h : cx.eval p env t m = .ok v m') : v.All good ∧ holds m'.world := by
  induction p, env, t, m using Context.eval_induction generalizing v m' with
  | step p env t m ih =>
    -- Parts are reached, because the term is, and they are smaller.
    have part : ∀ {inner u m₁ v m₂}, cx.Calls (.eval env t m) [] (.eval inner u m₁) →
        inner.All good → holds m₁.world → cx.eval p inner u m₁ = .ok v m₂ →
          v.All good ∧ holds m₂.world := by
      intro inner u m₁ v m₂ step hinner hm₁ hu
      obtain ⟨hstack, hsize⟩ := step.stays
      have hroom : m₁.stack.room p = m.stack.room p := congrArg (·.room p) hstack
      exact ih p inner u m₁ (.inr ⟨hroom, hsize⟩) (tr.step hr hg step) hinner hm₁ hu
    cases Context.eval_value h with
    | @literal span l =>
      refine ⟨fun u hu => ?_, hm⟩
      have hself : (Value.ofLiteral l).parts = [.ofLiteral l] := by cases l <;> rfl
      rw [hself, List.mem_singleton] at hu
      rw [hu]
      exact tr.literal l
    | bound found => exact ⟨hg.lookup found, hm⟩
    | lambda => exact ⟨Value.all_closure.mpr ⟨tr.lambda hr, hg⟩, hm⟩
    | @app span func args m code closed m₁ values m₂ inner m₃ v m₄ callee arguments enters room
        result =>
      obtain ⟨hf, hm₁⟩ := part .func hg hm callee
      obtain ⟨-, hvalues, hm₂⟩ := Context.evalAll_value arguments hm₁ fun turn =>
        part (.argument ⟨p, callee⟩ turn) hg
      have hcall : cx.Calls (.eval env (.app span func args) m) []
          (.apply code closed values (.ofTerm (.app span func args)) m₂) :=
        .call ⟨p, callee⟩ ⟨p, arguments⟩
      have happly := tr.step hr hg hcall
      obtain ⟨hinner, hm₃⟩ := tr.entered ⟨hf, hvalues⟩ hm₂ enters
      have hstack : m₂.stack = m.stack := hcall.stays.1
      rw [hstack] at room
      have hresult := ih (p - 1) inner code.body m₃ (.inl room)
        (tr.step happly ⟨hf, hvalues⟩ enters) hinner hm₃ result
      exact hresult
    | @letIn span x value body m u m₁ v m' bound result =>
      obtain ⟨hu, hm₁⟩ := part .letValue hg hm bound
      refine part (.letBody ⟨p, bound⟩) (hg.extendMany _ fun b hb => ?_) (tr.stamp _ hm₁) result
      rwa [List.mem_singleton.mp hb]
    | letRec result =>
      exact part .letRecBody (hg.bindGroup _ (tr.group hr)) (tr.stamp _ hm) result
    | ifThenElse condition result =>
      obtain ⟨-, hm₁⟩ := part .condition hg hm condition
      exact part (.branch ⟨p, condition⟩) hg hm₁ result
    | caseOf value chosen result =>
      obtain ⟨hu, hm₁⟩ := part .scrutinee hg hm value
      obtain ⟨q, -, hq⟩ := Term.choose_mem chosen
      exact part (.alternative ⟨p, value⟩ chosen) (hg.extendMany _ (hu.bindings hq))
        (tr.stamp _ hm₁) result
    | record given =>
      obtain ⟨hlength, hvalues, hm₁⟩ := Context.evalAll_value given hm fun turn =>
        part (.fieldValue turn) hg
      rw [List.length_map] at hlength
      refine ⟨fun u hu => ?_, tr.stamp _ hm₁⟩
      -- The record is good as such, and the parts of its fields by what was just shown.
      rcases Value.parts_of_ofFields hu with rfl | ⟨f, hf, hu⟩
      · exact tr.record hr _ _ hlength
      · exact hvalues f.2 (List.of_mem_zip hf).2 u hu
    | field record found =>
      obtain ⟨hrecord, hm'⟩ := part .base hg hm record
      exact ⟨hrecord.field found, hm'⟩
    | variant given =>
      obtain ⟨hv, hm'⟩ := part .payload hg hm given
      refine ⟨fun u hu => ?_, hm'⟩
      rcases List.mem_cons.mp hu with rfl | hu
      · exact tr.variant hr _
      · exact hv u hu
    | operator operands applies =>
      obtain ⟨-, hvalues, hm₁⟩ := Context.evalAll_value operands hm fun turn =>
        part (.operand turn) hg
      obtain ⟨hw, hv⟩ := tr.operator hr hvalues hm₁ applies
      exact ⟨hv _ rfl, hw⟩

variable {env : Env} {t : Term} {ts : List Term} {m m' : Machine}

theorem gives (hr : reached (.eval env t m)) (hg : env.All good) (hm : holds m.world) {v : Value}
    (h : cx.Gives env t m v m') : v.All good ∧ holds m'.world := by
  obtain ⟨p, hp⟩ := h
  exact tr.eval p env t m hr hg hm hp

theorem givesAll (hr : ∀ {u m₁}, cx.Turn env ts m u m₁ → reached (.eval env u m₁))
    (hg : env.All good) (hm : holds m.world) {vs : List Value}
    (h : cx.GivesAll env ts m vs m') : (∀ v ∈ vs, v.All good) ∧ holds m'.world := by
  obtain ⟨p, hp⟩ := h
  exact (Context.evalAll_value hp hm fun turn hm₁ => tr.eval p env _ _ (hr turn) hg hm₁).2

theorem turn {u : Term} (hr : ∀ {u m₁}, cx.Turn env ts m u m₁ → reached (.eval env u m₁))
    (hg : env.All good) (hm : holds m.world) (h : cx.Turn env ts m u m') : holds m'.world := by
  induction h with
  | now => exact hm
  | later value rest ih =>
    have hm₁ := (tr.gives (hr .now) hg hm value).2
    exact ih (fun turn => hr (.later value turn)) hm₁

end Tracking

/-- The job is one that may be reached, it is given good values, and it begins in a world that the
invariant allows. -/
structure Job.Tracked (good : Value → Prop) (reached : Job → Prop) (holds : World → Prop)
    (j : Job) : Prop where
  reached : reached j
  good : j.Good good
  world : holds j.machine.world

namespace Tracking

variable {cx : Context} {good : Value → Prop} {reached : Job → Prop} {holds : World → Prop}
  (tr : Tracking cx good reached holds)
include tr

/-- A tracked job leads directly to tracked jobs. -/
theorem calls {j k : Job} {new : List Call} (h : cx.Calls j new k)
    (hj : j.Tracked good reached holds) : k.Tracked good reached holds := by
  obtain ⟨hr, hg, hm⟩ := hj
  -- Whatever it leads to is reached, and so are the parts whose values it needs before.
  have part : ∀ {new k}, cx.Calls _ new k → reached k := tr.step hr hg
  suffices hgiven : k.Good good ∧ holds k.machine.world from ⟨part h, hgiven.1, hgiven.2⟩
  cases h with
  | argument callee turn =>
    have hm₁ := (tr.gives (part .func) hg hm callee).2
    exact ⟨hg, tr.turn (fun turn => part (.argument callee turn)) hg hm₁ turn⟩
  | call callee arguments =>
    obtain ⟨hf, hm₁⟩ := tr.gives (part .func) hg hm callee
    obtain ⟨hvalues, hm₂⟩ :=
      tr.givesAll (fun turn => part (.argument callee turn)) hg hm₁ arguments
    exact ⟨⟨hf, hvalues⟩, hm₂⟩
  | body count admits bound => exact tr.entered hg hm (.body count admits bound)
  | letBody bound =>
    obtain ⟨hv, hm₁⟩ := tr.gives (part .letValue) hg hm bound
    refine ⟨hg.extendMany _ fun b hb => ?_, tr.stamp _ hm₁⟩
    rwa [List.mem_singleton.mp hb]
  | letRecBody => exact ⟨hg.bindGroup _ (tr.group hr), tr.stamp _ hm⟩
  | branch condition => exact ⟨hg, (tr.gives (part .condition) hg hm condition).2⟩
  | alternative value chosen =>
    obtain ⟨hv, hm₁⟩ := tr.gives (part .scrutinee) hg hm value
    obtain ⟨p, -, hp⟩ := Term.choose_mem chosen
    exact ⟨hg.extendMany _ (hv.bindings hp), tr.stamp _ hm₁⟩
  | fieldValue turn => exact ⟨hg, tr.turn (fun turn => part (.fieldValue turn)) hg hm turn⟩
  | operand turn => exact ⟨hg, tr.turn (fun turn => part (.operand turn)) hg hm turn⟩
  | _ => exact ⟨hg, hm⟩

/-- **Every job within a tracked job is tracked.** -/
theorem within {j k : Job} {active : List Call} (h : cx.Within j active k)
    (hj : j.Tracked good reached holds) : k.Tracked good reached holds := by
  induction h with
  | refl => exact hj
  | head step rest ih => exact ih (tr.calls step hj)

end Tracking

/-! ## Invariants of terms -/

/-- **An invariant of evaluation**: `good` values, `suits` for a term in an environment, and what
`holds` of the world. -/
structure Invariant (cx : Context) (good : Value → Prop) (suits : Env → Term → Prop)
    (holds : World → Prop) : Prop where
  literal : ∀ l, good (.ofLiteral l)
  lambda : ∀ {env span id header body}, suits env (.lambda span id header body) →
    good (.closure (.lambda id header body) env)
  app : ∀ {env span func args}, suits env (.app span func args) →
    suits env func ∧ ∀ a ∈ args, suits env a
  letIn : ∀ {env span x value body}, suits env (.letIn span x value body) →
    suits env value ∧ ∀ stamp v, suits (env.extendMany stamp [(x, v)]) body
  letRec : ∀ {env span id functions body}, suits env (.letRec span id functions body) →
    (∀ i, i < functions.length → good (.closure (.member id functions i) env)) ∧
      ∀ stamp, suits (env.bindGroup stamp id functions) body
  ifThenElse : ∀ {env span cond thenBranch elseBranch},
    suits env (.ifThenElse span cond thenBranch elseBranch) →
      suits env cond ∧ suits env thenBranch ∧ suits env elseBranch
  caseOf : ∀ {env span scrutinee alternatives}, suits env (.caseOf span scrutinee alternatives) →
    suits env scrutinee ∧ ∀ p body, (p, body) ∈ alternatives →
      ∀ stamp bindings, bindings.map (·.1) = p.boundNames →
        suits (env.extendMany stamp bindings) body
  record : ∀ {env span fields}, suits env (.record span fields) →
    (∀ u ∈ fields.map (·.2), suits env u) ∧ ∀ stamp values, values.length = fields.length →
      good (.ofFields stamp ((fields.map (·.1)).zip values))
  field : ∀ {env span base x}, suits env (.field span base x) → suits env base
  variant : ∀ {env span tag payload}, suits env (.variant span tag payload) →
    suits env payload ∧ ∀ v, good (.variant tag v)
  prim : ∀ {env span op args}, suits env (.prim span op args) → ∀ a ∈ args, suits env a
  /-- A function is called in the environment that it remembers, a member of a group in that of the
  group. -/
  body : ∀ {code env} {args : List Value}, good (.closure code env) → code.arity = args.length →
    ∀ stamp stamp',
      suits ((env.ofCode stamp code).extendMany stamp' (code.params.zip args)) code.body
  members : ∀ {id functions i env}, good (.closure (.member id functions i) env) →
    ∀ k, k < functions.length → good (.closure (.member id functions k) env)
  stamp : ∀ w, holds w → holds w.stamp.2
  operator : ∀ {env span op args} {values : List Value} {w w' : World} {r : Except Fault Value},
    suits env (.prim span op args) → (∀ v ∈ values, v.All good) → holds w →
      op.apply cx values w = (r, w') → holds w' ∧ ∀ v, r = .ok v → v.All good

/-- The job is suited: its environment and its values are good, its term suits the environment, and
its world is one that the invariant allows. -/
def Job.Suited (good : Value → Prop) (suits : Env → Term → Prop) (holds : World → Prop) :
    Job → Prop
  | .eval env t m => env.All good ∧ suits env t ∧ holds m.world
  | .apply code env args _ m =>
    (Value.closure code env).All good ∧ (∀ v ∈ args, v.All good) ∧ holds m.world

namespace Invariant

variable {cx : Context} {good : Value → Prop} {suits : Env → Term → Prop} {holds : World → Prop}
  (inv : Invariant cx good suits holds)
include inv

/-- Whatever suited terms and good functions lead to suits its environment. -/
theorem tracking : Tracking cx good
    (fun | .eval env t _ => suits env t | .apply .. => True) holds where
  step {j new k} hj hgood h := by
    cases h with
    | func => exact (inv.app hj).1
    | argument callee turn => exact (inv.app hj).2 _ turn.mem
    | call callee arguments => trivial
    | @body code env args site m inner m₁ count admits bound =>
      obtain ⟨stamp, stamp', rfl⟩ := Eval.bodyEnv_ok bound
      exact inv.body (Value.all_closure.mp hgood.1).1 count stamp stamp'
    | letValue => exact (inv.letIn hj).1
    | letBody bound => exact (inv.letIn hj).2 _ _
    | letRecBody => exact (inv.letRec hj).2 _
    | condition => exact (inv.ifThenElse hj).1
    | @branch env span cond thenBranch elseBranch m b m₁ condition =>
      obtain ⟨-, hthen, helse⟩ := inv.ifThenElse hj
      cases b with
      | true => exact hthen
      | false => exact helse
    | scrutinee => exact (inv.caseOf hj).1
    | alternative value chosen =>
      obtain ⟨p, hmem, hp⟩ := Term.choose_mem chosen
      exact (inv.caseOf hj).2 p _ hmem _ _ (Pattern.match?_bindings hp).1
    | fieldValue turn => exact (inv.record hj).1 _ turn.mem
    | base => exact inv.field hj
    | payload => exact (inv.variant hj).1
    | operand turn => exact inv.prim hj _ turn.mem
  literal := inv.literal
  lambda := inv.lambda
  group hj := (inv.letRec hj).1
  members := inv.members
  record hj := (inv.record hj).2
  variant hj := (inv.variant hj).2
  stamp := inv.stamp
  operator := inv.operator

/-- **Every job within a suited job is suited.** -/
theorem within {j k : Job} {active : List Call} (h : cx.Within j active k)
    (hj : j.Suited good suits holds) : k.Suited good suits holds := by
  have hstart : j.Tracked good (fun | .eval env t _ => suits env t | .apply .. => True) holds := by
    cases j with
    | eval env t m => exact ⟨hj.2.1, hj.1, hj.2.2⟩
    | apply code env args site m => exact ⟨trivial, ⟨hj.1, hj.2.1⟩, hj.2.2⟩
  obtain ⟨hr, hgood, hw⟩ := inv.tracking.within h hstart
  cases k with
  | eval env t m => exact ⟨hgood, hr, hw⟩
  | apply code env args site m => exact ⟨hgood.1, hgood.2, hw⟩

end Invariant
end CapLang
