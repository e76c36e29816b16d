import CapLang.Proofs.Hosts
import CapLang.Proofs.Invariants
import CapLang.Proofs.Places
import CapLang.Runner

/-!
# The static shape of environments

Wherever in a program evaluation has come to, the frames of the environment carry the name lists of
the binders around that place, however often and from wherever functions were called on the way.
`Context.Reaches` says how evaluation comes to a place: from a term to one of its parts
(`Context.Part`), and from a call to the body of the function, which is a part of the term that made
the function in the environment that it remembers.  Every evaluation within a run is one that comes
to some place (`Context.reaches_of_within`), because every function that a value contains was made
at a place that was reached (`Context.Made`).
-/
namespace CapLang

namespace Context

variable (cx : Context)

/-! ## From a term to its parts -/

/-- **Evaluation of a term comes to one of its parts**, the one with this number, once the parts
that it needs before have values. -/
inductive Part (env : Env) : Term → Machine → Nat → Env → Term → Machine → Prop
  | func {span func args m} : Part env (.app span func args) m 0 env func (m.counted .term)
  | argument {span func args m code closed m₁ i values m₂ a}
      (callee : cx.Gives env func (m.counted .term) (.closure code closed) m₁)
      (before : cx.GivesAll env (args.take i) m₁ values m₂) (here : args[i]? = some a) :
      Part env (.app span func args) m (i + 1) env a m₂
  | letValue {span x value body m} :
      Part env (.letIn span x value body) m 0 env value (m.counted .term)
  | letBody {span x value body m v m₁} (bound : cx.Gives env value (m.counted .term) v m₁) :
      Part env (.letIn span x value body) m 1
        (env.extendMany m₁.world.stamp.1 [(x, v)]) body m₁.stamped
  | letRecBody {span id functions body m} : Part env (.letRec span id functions body) m 0
      (env.bindGroup m.world.stamp.1 id functions) body (m.counted .term).stamped
  | condition {span cond thenBranch elseBranch m} :
      Part env (.ifThenElse span cond thenBranch elseBranch) m 0 env cond (m.counted .term)
  | thenBranch {span cond thenBranch elseBranch m m₁}
      (condition : cx.Gives env cond (m.counted .term) (.bool true) m₁) :
      Part env (.ifThenElse span cond thenBranch elseBranch) m 1 env thenBranch m₁
  | elseBranch {span cond thenBranch elseBranch m m₁}
      (condition : cx.Gives env cond (m.counted .term) (.bool false) m₁) :
      Part env (.ifThenElse span cond thenBranch elseBranch) m 2 env elseBranch m₁
  | scrutinee {span scrutinee alternatives m} :
      Part env (.caseOf span scrutinee alternatives) m 0 env scrutinee (m.counted .term)
  /-- The first alternative that fits. -/
  | alternative {span scrutinee alternatives m v m₁ i p body bindings}
      (value : cx.Gives env scrutinee (m.counted .term) v m₁)
      (here : alternatives[i]? = some (p, body)) (fits : p.match? v = some bindings)
      (before : ∀ a ∈ alternatives.take i, a.1.match? v = none) :
      Part env (.caseOf span scrutinee alternatives) m (i + 1)
        (env.extendMany m₁.world.stamp.1 bindings) body (m₁.counted .case).stamped
  | fieldValue {span fields m i values m₁ a}
      (before : cx.GivesAll env ((fields.map (·.2)).take i) (m.counted .term) values m₁)
      (here : (fields.map (·.2))[i]? = some a) : Part env (.record span fields) m i env a m₁
  | base {span base x m} : Part env (.field span base x) m 0 env base (m.counted .term)
  | payload {span tag payload m} :
      Part env (.variant span tag payload) m 0 env payload (m.counted .term)
  | operand {span op args m i values m₁ a}
      (before : cx.GivesAll env (args.take i) (m.counted .term) values m₁)
      (here : args[i]? = some a) : Part env (.prim span op args) m i env a m₁

variable {cx} {env inner : Env} {t u : Term} {m m₁ : Machine} {i : Nat}

theorem Part.calls (h : cx.Part env t m i inner u m₁) :
    cx.Calls (.eval env t m) [] (.eval inner u m₁) := by
  cases h with
  | func => exact .func
  | argument callee before here => exact .argument callee (turn_iff.mpr ⟨_, _, before, here⟩)
  | letValue => exact .letValue
  | letBody bound => exact .letBody bound
  | letRecBody => exact .letRecBody
  | condition => exact .condition
  | thenBranch condition => exact .branch condition
  | elseBranch condition => exact .branch condition
  | scrutinee => exact .scrutinee
  | alternative value here fits before =>
    exact .alternative value (Term.choose_eq_some.mpr ⟨_, _, here, fits, before⟩)
  | fieldValue before here => exact .fieldValue (turn_iff.mpr ⟨_, _, before, here⟩)
  | base => exact .base
  | payload => exact .payload
  | operand before here => exact .operand (turn_iff.mpr ⟨_, _, before, here⟩)

/-- Whatever a term evaluates directly is one of its parts. -/
theorem part_of_calls {new : List Call} (h : cx.Calls (.eval env t m) new (.eval inner u m₁)) :
    ∃ i, cx.Part env t m i inner u m₁ := by
  cases h with
  | func => exact ⟨0, .func⟩
  | argument callee turn =>
    obtain ⟨i, values, before, here⟩ := turn_iff.mp turn
    exact ⟨i + 1, .argument callee before here⟩
  | letValue => exact ⟨0, .letValue⟩
  | letBody bound => exact ⟨1, .letBody bound⟩
  | letRecBody => exact ⟨0, .letRecBody⟩
  | condition => exact ⟨0, .condition⟩
  | @branch _ span cond thenBranch elseBranch _ b _ condition =>
    cases b with
    | true => exact ⟨1, .thenBranch condition⟩
    | false => exact ⟨2, .elseBranch condition⟩
  | scrutinee => exact ⟨0, .scrutinee⟩
  | alternative value chosen =>
    obtain ⟨i, p, here, fits, before⟩ := Term.choose_eq_some.mp chosen
    exact ⟨i + 1, .alternative value here fits before⟩
  | fieldValue turn =>
    obtain ⟨i, values, before, here⟩ := turn_iff.mp turn
    exact ⟨i, .fieldValue before here⟩
  | base => exact ⟨0, .base⟩
  | payload => exact ⟨0, .payload⟩
  | operand turn =>
    obtain ⟨i, values, before, here⟩ := turn_iff.mp turn
    exact ⟨i, .operand before here⟩

/-- **A part is evaluated inside frames for the binders on the way to it.** -/
theorem Part.shape (h : cx.Part env t m i inner u m₁) :
    ∃ bound, t.part? i = some (bound, u) ∧ inner.names = framed bound ++ env.names := by
  cases h with
  | argument callee before here => exact ⟨[], by rw [Term.part?, here]; rfl, rfl⟩
  | @letBody span x => exact ⟨[[x]], rfl, Env.names_extendMany ..⟩
  | letRecBody => exact ⟨_, rfl, Env.names_bindGroup ..⟩
  | @alternative span scrutinee alternatives m v m₁ i p body bindings value here fits before =>
    refine ⟨[p.boundNames], by rw [Term.part?, here]; rfl, ?_⟩
    rw [Env.names_extendMany, (Pattern.match?_bindings fits).1]
  | fieldValue before here =>
    rw [List.getElem?_map] at here
    obtain ⟨f, hf, rfl⟩ := Option.map_eq_some_iff.mp here
    exact ⟨[], by rw [Term.part?, hf]; rfl, rfl⟩
  | operand before here => exact ⟨[], by rw [Term.part?, here]; rfl, rfl⟩
  | _ => exact ⟨[], rfl, rfl⟩

/-- The body of a function is evaluated inside frames for the binders of the function. -/
theorem names_of_entered {code : Code} {closed : Env} {args : List Value} {site : Site}
    {new : List Call} (h : cx.Calls (.apply code closed args site m) new (.eval inner u m₁)) :
    u = code.body ∧ inner.names = framed code.binders ++ closed.names := by
  cases h with
  | body count admits bound =>
    refine ⟨rfl, ?_⟩
    obtain ⟨stamp, stamp', rfl⟩ := Eval.bodyEnv_ok bound
    exact Env.names_ofCode _ _ _ count

/-! ## From place to place -/

variable (cx)

/-- **Evaluation of a program comes to a place in it**, in this environment and on this machine. -/
inductive Reaches (root : Term) (m₀ : Machine) : Place → Env → Term → Machine → Prop
  | root : Reaches root m₀ [] .empty root m₀
  | part {place env t m i inner u m₁} (outer : Reaches root m₀ place env t m)
      (step : cx.Part env t m i inner u m₁) : Reaches root m₀ (place ++ [i]) inner u m₁
  /-- The body of a function that is called stands in the term that made the function, wherever the
  call is. -/
  | body {place env t m code closed args site m₁ new inner m₂ origin maker m₃ i}
      (caller : Reaches root m₀ place env t m)
      (call : cx.Calls (.eval env t m) [] (.apply code closed args site m₁))
      (enters : cx.Calls (.apply code closed args site m₁) new (.eval inner code.body m₂))
      (made : Reaches root m₀ origin closed maker m₃) (makes : maker.function? i = some code) :
      Reaches root m₀ (origin ++ [i]) inner code.body m₂

variable {cx} {root : Term} {m₀ : Machine} {place : Place}

/-- **What is evaluated at a place stands there, in an environment with frames for the binders
around the place.** -/
theorem Reaches.shape (h : cx.Reaches root m₀ place env t m) :
    ∃ scope, root.at? place = some (scope, t) ∧ env.names = framed scope := by
  induction h with
  | root => exact ⟨[], rfl, rfl⟩
  | part outer step ih =>
    obtain ⟨scope, hat, hnames⟩ := ih
    obtain ⟨bound, hpart, hinner⟩ := step.shape
    exact ⟨bound ++ scope, Term.at?_last hat hpart, by rw [hinner, hnames, framed_append]⟩
  | body caller call enters made makes ihcaller ihmade =>
    -- Where the function is called from does not matter.
    obtain ⟨scope, hat, hnames⟩ := ihmade
    have hpart := Term.part?_of_function? makes
    have hinner := (names_of_entered enters).2
    exact ⟨_, Term.at?_last hat hpart, by rw [hinner, hnames, framed_append]⟩

/-- Evaluation comes to a place within the evaluation of the program. -/
theorem Reaches.within (h : cx.Reaches root m₀ place env t m) :
    ∃ active, cx.Within (.eval .empty root m₀) active (.eval env t m) := by
  induction h with
  | root => exact ⟨[], .refl⟩
  | part outer step ih =>
    obtain ⟨active, hwithin⟩ := ih
    exact ⟨_, hwithin.last step.calls⟩
  | body caller call enters made makes ihcaller ihmade =>
    obtain ⟨active, hwithin⟩ := ihcaller
    exact ⟨_, (hwithin.last call).last enters⟩

/-! ## Functions are made at places -/

variable (cx root m₀)

/-- The function was made in this environment, at a place that was reached. -/
def Made (code : Code) (env : Env) : Prop :=
  ∃ origin maker m i, cx.Reaches root m₀ origin env maker m ∧ maker.function? i = some code

/-- The evaluation comes to a place, or the call is made at one. -/
def Located : Job → Prop
  | .eval env t m => ∃ place, cx.Reaches root m₀ place env t m
  | .apply code closed args site m =>
    ∃ place env t m', cx.Reaches root m₀ place env t m' ∧
      cx.Calls (.eval env t m') [] (.apply code closed args site m)

variable {cx root m₀}

/-- **Evaluation goes from place to place**, and the functions it comes by were made at places. -/
theorem located_tracking (hi : cx.invoke = World.invoke) {start : World}
    (hstart : start.ReturnsParts) :
    Tracking cx (Value.Functions (cx.Made root m₀)) (cx.Located root m₀)
      (start.Follows (cx.Made root m₀)) where
  step {j new k} hj hgood h := by
    cases j with
    | eval env t m =>
      obtain ⟨place, hplace⟩ := hj
      cases k with
      | eval inner u m₁ =>
        obtain ⟨i, hpart⟩ := part_of_calls h
        exact ⟨_, .part hplace hpart⟩
      | apply code closed args site m₁ =>
        have hnew : new = [] := by cases h; rfl
        subst hnew
        exact ⟨place, env, t, m, hplace, h⟩
    | apply code closed args site m =>
      obtain ⟨place, env, t, m', hplace, hcall⟩ := hj
      cases k with
      | eval inner u m₁ =>
        obtain ⟨origin, maker, m₃, i, hmade, hmakes⟩ := (Value.all_closure.mp hgood.1).1
        obtain ⟨rfl, -⟩ := names_of_entered h
        exact ⟨_, .body hplace hcall h hmade hmakes⟩
      | apply => cases h
  literal l := by cases l <;> trivial
  lambda hj := by
    obtain ⟨place, hplace⟩ := hj
    exact ⟨place, _, _, 0, hplace, rfl⟩
  group {env span id functions body m} hj i hlt := by
    obtain ⟨place, hplace⟩ := hj
    refine ⟨place, _, _, i + 1, hplace, ?_⟩
    rw [Term.function?, List.getElem?_eq_getElem hlt]
    rfl
  members {id functions i env} hmade k hlt := by
    obtain ⟨origin, maker, m, j, hreaches, hmakes⟩ := hmade
    refine ⟨origin, maker, m, k + 1, hreaches, ?_⟩
    -- A group makes all its members.
    unfold Term.function? at hmakes
    split at hmakes
    · cases hmakes
    · obtain ⟨f, hf, heq⟩ := Option.map_eq_some_iff.mp hmakes
      cases heq
      rw [Term.function?, List.getElem?_eq_getElem hlt]
      rfl
    · cases hmakes
  record _ _ _ _ := Value.functions_ofFields
  variant _ _ := trivial
  stamp _ hw := hw.stamp
  operator _ hvalues hw happly := Operator.apply_follows hi hw hstart hvalues happly

/-- **Every evaluation within that of a program comes to some place in it.** -/
theorem reaches_of_within (hi : cx.invoke = World.invoke) (hreturns : m₀.world.ReturnsParts)
    {active : List Call} (h : cx.Within (.eval .empty root m₀) active (.eval env t m)) :
    ∃ place, cx.Reaches root m₀ place env t m := by
  have htracked := (located_tracking hi hreturns).within h
    ⟨⟨[], .root⟩, (nofun : Env.empty.All _), .refl _⟩
  exact htracked.reached

end Context

/-- **Environments have the static shape of the scope.**  The evaluations of a run are those that
come to a place in the program.  What is evaluated at a place is the term that stands there, and the
frames of its environment carry the name lists of the binders around the place, the innermost first
and without the empty ones; so the place alone decides how many frames there are and at which
address each name is found. -/
theorem static_shape (names : NameTable) (registry : Registry) (mode : Mode) (counting : Bool)
    (root : Term) (w : World) (hreturns : w.ReturnsParts) :
    let cx : Context := ⟨names, registry, World.invoke⟩
    let m₀ : Machine := .start mode counting w
    (∀ env t m, (∃ active, cx.Within (.eval .empty root m₀) active (.eval env t m)) ↔
      ∃ place, cx.Reaches root m₀ place env t m) ∧
    ∀ place env t m, cx.Reaches root m₀ place env t m →
      ∃ scope, root.at? place = some (scope, t) ∧
        env.names = framed scope ∧ env.depth = (framed scope).length ∧
        ∀ x, env.lookup x = (address? x (framed scope)).bind env.value? := by
  intro cx m₀
  refine ⟨fun env t m => ⟨?_, ?_⟩, fun place env t m h => ?_⟩
  · rintro ⟨active, h⟩
    exact Context.reaches_of_within rfl hreturns h
  · rintro ⟨place, h⟩
    exact h.within
  · obtain ⟨scope, hat, hnames⟩ := h.shape
    have hdepth : env.depth = (framed scope).length := by rw [env.depth_eq, hnames]
    exact ⟨scope, hat, hnames, hdepth, fun x => by rw [← hnames, env.lookup_eq]⟩

/-- A function that calls itself, in its second call: its body runs inside the frame of its
parameter and that of its group, as in the first call. -/
theorem second_call_shape :
    let cx : Context := ⟨⟨#["", "loop", "n"]⟩, .empty, World.invoke⟩
    let body : Term := .app none (.var none ⟨1⟩) [.var none ⟨2⟩]
    let root : Term := .letRec none ⟨0⟩ [(⟨⟨1⟩, none, [⟨2⟩]⟩, body)]
      (.app none (.var none ⟨1⟩) [.literal none (.int 1)])
    Echo.world.ReturnsParts ∧ ∃ active env m,
      cx.Within (.eval .empty root (.start .unbounded true Echo.world)) active (.eval env body m) ∧
      active.length = 2 ∧ env.names = [[⟨2⟩], [⟨1⟩]] ∧
      ∃ place scope, root.at? place = some (scope, body) ∧
        env.names = framed scope ∧ env.depth = (framed scope).length ∧
        ∀ x, env.lookup x = (address? x (framed scope)).bind env.value? := by
  intro cx body root
  have hadmits {m : Machine} (h : m.stack.limit? = none) : m.Admits := by
    intro limit hl
    rw [h] at hl
    cases hl
  have hwithin : ∃ active env m,
      cx.Within (.eval .empty root (.start .unbounded true Echo.world)) active (.eval env body m) ∧
      active.length = 2 ∧ env.names = [[⟨2⟩], [⟨1⟩]] := by
    -- Into the body of the program, and twice into that of the function.
    exact ⟨_, _, _, .head .letRecBody (.head (.call ⟨0, rfl⟩ ⟨0, rfl⟩)
      (.head (.body rfl (hadmits rfl) rfl) (.head (.call ⟨0, rfl⟩ ⟨0, rfl⟩)
        (.head (.body rfl (hadmits rfl) rfl) .refl)))), rfl, rfl⟩
  obtain ⟨active, env, m, hwithin, hlength, hnames⟩ := hwithin
  have hshape := static_shape ⟨#["", "loop", "n"]⟩ .empty .unbounded true root Echo.world
    Echo.returnsParts
  obtain ⟨place, hplace⟩ := (hshape.1 env body m).mp ⟨_, hwithin⟩
  exact ⟨Echo.returnsParts, active, env, m, hwithin, hlength, hnames, place,
    hshape.2 place env body m hplace⟩

end CapLang
