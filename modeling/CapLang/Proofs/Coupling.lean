import CapLang.Proofs.Alike
import CapLang.Proofs.Tandem

/-!
# Two evaluations side by side

Evaluating one term twice, in two environments, two contexts or two worlds, goes the same way as
long as nothing that evaluation looks at differs.  A `Coupling` says what the two sides may differ
in: `V` relates their values, `S` the environments that they have for a term, `St` their stamps and
`W` their worlds.  It lists what has to be shown of each form of term, of the bodies of functions
and of host objects.  Then the two evaluations keep in step (`Coupling.eval`): both stop with the
very same fault or both give a value, the values are related, and the machines agree in all but
their related worlds.
-/
namespace CapLang

open Value (Fieldwise Faithful)

/-- The machines agree, but for their worlds, which are related. -/
structure Machine.Coupled (W : World → World → Prop) (m₁ m₂ : Machine) : Prop where
  stack : m₁.stack = m₂.stack
  counters : m₁.counters = m₂.counters
  world : W m₁.world m₂.world

/-- **Two evaluations come to the same**: to related results or to one and the same stop. -/
inductive SameEnd {α : Type} (W : World → World → Prop) (R : α → α → Prop) :
    EStateM.Result Stop Machine α → EStateM.Result Stop Machine α → Prop
  | ok {a b : α} {m₁ m₂ : Machine} (result : R a b) (machines : m₁.Coupled W m₂) :
      SameEnd W R (.ok a m₁) (.ok b m₂)
  | error (stop : Stop) {m₁ m₂ : Machine} (machines : m₁.Coupled W m₂) :
      SameEnd W R (.error stop m₁) (.error stop m₂)

/-- Two steps come to the same on machines that agree. -/
def Eval.InStep {α : Type} (W : World → World → Prop) (R : α → α → Prop) (x y : Eval α) : Prop :=
  ∀ m₁ m₂ : Machine, m₁.Coupled W m₂ → SameEnd W R (x m₁) (y m₂)

/-! ## Equal names -/

/-- Stacks that are the same up to equal names are the same. -/
theorem CallStack.akin_eq_iff {s t : CallStack} : s.Akin Eq t ↔ s = t := by
  constructor
  · intro h
    have hcalls : s.calls = t.calls := by
      have heq : List.Forall₂ Eq s.calls t.calls := h.calls.imp fun c d hcd => by
        obtain ⟨hcallee, hspan⟩ := hcd
        cases c
        cases d
        cases hspan
        cases hcallee with
        | none => rfl
        | some hname => rw [hname]
      rwa [List.forall₂_eq_eq_eq] at heq
    have hdepth := h.depth_eq
    have hlimit := h.limit
    cases s
    cases t
    cases hcalls
    cases hdepth
    cases hlimit
    rfl
  · rintro rfl
    exact ⟨List.forall₂_same.mpr fun c _ => ⟨optionRel_refl (fun _ => rfl) _, rfl⟩, rfl⟩

theorem Machine.Akin.coupled {W : World → World → Prop} {m₁ m₂ : Machine}
    (h : m₁.Akin Eq W m₂) : m₁.Coupled W m₂ :=
  ⟨CallStack.akin_eq_iff.mp h.stack, h.counters, h.world⟩

theorem Machine.Coupled.akin {W : World → World → Prop} {m₁ m₂ : Machine}
    (h : m₁.Coupled W m₂) : m₁.Akin Eq W m₂ :=
  ⟨CallStack.akin_eq_iff.mpr h.stack, h.counters, h.world⟩

/-! ## Couplings -/

/-- **What two evaluations of one term may differ in.** -/
structure Coupling (cx₁ cx₂ : Context) (V : Value → Value → Prop) (S : Env → Env → Term → Prop)
    (St : Stamp → Stamp → Prop) (W : World → World → Prop) : Prop where
  names : cx₁.names = cx₂.names
  faithful : Faithful V
  literal : ∀ l, V (.ofLiteral l) (.ofLiteral l)
  var : ∀ {env₁ env₂ span x}, S env₁ env₂ (.var span x) →
    Option.Rel V (env₁.lookup x) (env₂.lookup x)
  lambda : ∀ {env₁ env₂ span id header body}, S env₁ env₂ (.lambda span id header body) →
    V (.closure (.lambda id header body) env₁) (.closure (.lambda id header body) env₂)
  app : ∀ {env₁ env₂ span func args}, S env₁ env₂ (.app span func args) →
    S env₁ env₂ func ∧ ∀ a ∈ args, S env₁ env₂ a
  letIn : ∀ {env₁ env₂ span x value body}, S env₁ env₂ (.letIn span x value body) →
    S env₁ env₂ value ∧ ∀ s₁ s₂ v w, St s₁ s₂ → V v w →
      S (env₁.extendMany s₁ [(x, v)]) (env₂.extendMany s₂ [(x, w)]) body
  letRec : ∀ {env₁ env₂ span id functions body}, S env₁ env₂ (.letRec span id functions body) →
    ∀ s₁ s₂, St s₁ s₂ →
      S (env₁.bindGroup s₁ id functions) (env₂.bindGroup s₂ id functions) body
  ifThenElse : ∀ {env₁ env₂ span cond thenBranch elseBranch},
    S env₁ env₂ (.ifThenElse span cond thenBranch elseBranch) →
      S env₁ env₂ cond ∧ S env₁ env₂ thenBranch ∧ S env₁ env₂ elseBranch
  caseOf : ∀ {env₁ env₂ span scrutinee alternatives},
    S env₁ env₂ (.caseOf span scrutinee alternatives) →
      S env₁ env₂ scrutinee ∧ ∀ p body, (p, body) ∈ alternatives →
        ∀ s₁ s₂ bs₁ bs₂, St s₁ s₂ → bs₁.map (·.1) = p.boundNames → Fieldwise V bs₁ bs₂ →
          S (env₁.extendMany s₁ bs₁) (env₂.extendMany s₂ bs₂) body
  record : ∀ {env₁ env₂ span fields}, S env₁ env₂ (.record span fields) →
    ∀ u ∈ fields.map (·.2), S env₁ env₂ u
  ofFields : ∀ {s₁ s₂ fs gs}, St s₁ s₂ → Fieldwise V fs gs →
    V (.ofFields s₁ fs) (.ofFields s₂ gs)
  field : ∀ {env₁ env₂ span base x}, S env₁ env₂ (.field span base x) → S env₁ env₂ base
  payload : ∀ {env₁ env₂ span tag payload}, S env₁ env₂ (.variant span tag payload) →
    S env₁ env₂ payload
  variant : ∀ {tag v w}, V v w → V (.variant tag v) (.variant tag w)
  prim : ∀ {env₁ env₂ span op args}, S env₁ env₂ (.prim span op args) → ∀ a ∈ args, S env₁ env₂ a
  /-- A function is called in the environments that the two sides of it remember. -/
  body : ∀ {code env₁ env₂} {args₁ args₂ : List Value},
    V (.closure code env₁) (.closure code env₂) → List.Forall₂ V args₁ args₂ →
      code.arity = args₁.length → ∀ s₁ s₂ s₁' s₂', St s₁ s₂ → St s₁' s₂' →
        S ((env₁.ofCode s₁ code).extendMany s₁' (code.params.zip args₁))
          ((env₂.ofCode s₂ code).extendMany s₂' (code.params.zip args₂)) code.body
  stamp : ∀ {w₁ w₂}, W w₁ w₂ → St w₁.stamp.1 w₂.stamp.1 ∧ W w₁.stamp.2 w₂.stamp.2
  fetch : ∀ {env₁ env₂ span x args}, S env₁ env₂ (.prim span (.capability x) args) →
    Option.Rel (fun h k => V (.capability h) (.capability k)) (cx₁.registry.find? x)
      (cx₂.registry.find? x)
  host : ∀ {h method args₁ args₂ w₁ w₂}, V (.capability h) (.capability h) →
    List.Forall₂ V args₁ args₂ → W w₁ w₂ →
      SameAnswer V (cx₁.invoke w₁ h method args₁).1 (cx₂.invoke w₂ h method args₂).1 ∧
        W (cx₁.invoke w₁ h method args₁).2 (cx₂.invoke w₂ h method args₂).2

namespace Coupling

variable {cx₁ cx₂ : Context} {V : Value → Value → Prop} {S : Env → Env → Term → Prop}
  {St : Stamp → Stamp → Prop} {W : World → World → Prop} (c : Coupling cx₁ cx₂ V S St W)
include c

/-- One term in two environments, layer by layer. -/
theorem layer {env₁ env₂ : Env} {t : Term} (h : S env₁ env₂ t) :
    Layer Eq V (fun env₁ env₂ t u => t = u ∧ S env₁ env₂ t) St env₁ env₂ t t := by
  cases t with
  | literal span l => exact .value rfl rfl (c.literal l)
  | var span x =>
    have hlookup := c.var h
    generalize hx : env₁.lookup x = found₁ at hlookup
    generalize hy : env₂.lookup x = found₂ at hlookup
    cases hlookup with
    | none => exact .unbound rfl hx hy
    | some hv => exact .value hx hy hv
  | lambda span id header body => exact .value rfl rfl (c.lambda h)
  | app span func args =>
    obtain ⟨hfunc, hargs⟩ := c.app h
    exact .app ⟨rfl, hfunc⟩ (List.forall₂_same.mpr fun a ha => ⟨rfl, hargs a ha⟩)
  | letIn span x value body =>
    obtain ⟨hvalue, hbody⟩ := c.letIn h
    exact .letIn ⟨rfl, hvalue⟩ fun s₁ s₂ v w hs hv => ⟨rfl, hbody s₁ s₂ v w hs hv⟩
  | letRec span id functions body => exact .letRec fun s₁ s₂ hs => ⟨rfl, c.letRec h s₁ s₂ hs⟩
  | ifThenElse span cond thenBranch elseBranch =>
    obtain ⟨hcond, hthen, helse⟩ := c.ifThenElse h
    exact .ifThenElse ⟨rfl, hcond⟩ ⟨rfl, hthen⟩ ⟨rfl, helse⟩
  | caseOf span scrutinee alternatives =>
    obtain ⟨hscrutinee, hbodies⟩ := c.caseOf h
    refine .caseOf ⟨rfl, hscrutinee⟩ (List.forall₂_same.mpr fun a ha => ⟨a.1.akin_refl, ?_⟩)
    exact fun s₁ s₂ vs ws hs hnames hvs =>
      ⟨rfl, hbodies a.1 a.2 ha s₁ s₂ vs ws hs hnames (Value.fieldwise_iff.mpr hvs)⟩
  | record span fields =>
    exact .record (.of_forall fun f hf => ⟨rfl, rfl, c.record h f.2 (List.mem_map_of_mem hf)⟩)
  | field span base x => exact .field ⟨rfl, c.field h⟩ rfl
  | variant span tag payload => exact .variant rfl ⟨rfl, c.payload h⟩
  | prim span op args =>
    exact .prim op.akin_refl (List.forall₂_same.mpr fun a ha => ⟨rfl, c.prim h a ha⟩)

/-- **A coupling is a tandem** of a term with itself, under the same names. -/
theorem tandem : Tandem cx₁ cx₂ Eq V (fun env₁ env₂ t u => t = u ∧ S env₁ env₂ t) St W where
  oneToOne := biUnique_eq
  spelled x y hxy := by rw [hxy, c.names]
  faithful := c.faithful.under
  literal := c.literal
  layer h := by
    obtain ⟨rfl, h⟩ := h
    exact c.layer h
  ofFields hs hvs := c.ofFields hs (Value.fieldwise_iff.mpr hvs)
  variant htag hv := by
    obtain rfl := htag
    exact c.variant hv
  body {c₁ c₂ env₁ env₂ args₁ args₂} hf ha hcount s₁ s₂ s₁' s₂' hs hs' := by
    obtain rfl : c₁ = c₂ := by cases c.faithful _ _ hf; rfl
    exact ⟨rfl, c.body hf ha hcount s₁ s₂ s₁' s₂' hs hs'⟩
  stamp := c.stamp
  fetch hxy h := by
    obtain rfl := hxy
    exact c.fetch h.2
  host {h k method args₁ args₂ w₁ w₂} hh ha hw := by
    obtain rfl : h = k := by cases c.faithful _ _ hh; rfl
    exact c.host hh ha hw

/-- **The two evaluations of a term keep in step.** -/
theorem eval (p : Nat) {env₁ env₂ : Env} {t : Term} (ht : S env₁ env₂ t) :
    Eval.InStep W V (cx₁.eval p env₁ t) (cx₂.eval p env₂ t) := by
  intro m₁ m₂ hm
  have hend := c.tandem.eval p ⟨rfl, ht⟩ m₁ m₂ hm.akin
  generalize cx₁.eval p env₁ t m₁ = r₁ at hend ⊢
  generalize cx₂.eval p env₂ t m₂ = r₂ at hend ⊢
  cases hend with
  | ok result machines => exact .ok result machines.coupled
  | stop stop machines => exact .error stop machines.coupled

/-- **Two runs of a program keep in step**, and so do their counters. -/
theorem start (mode : Mode) (counting : Bool) (p : Nat) {t : Term} (ht : S .empty .empty t)
    {w₁ w₂ : World} (hw : W w₁ w₂) :
    SameAnswer V (Runner.start ⟨cx₁, mode⟩ counting p t w₁).1
        (Runner.start ⟨cx₂, mode⟩ counting p t w₂).1 ∧
      (Runner.start ⟨cx₁, mode⟩ counting p t w₁).2.Coupled W
        (Runner.start ⟨cx₂, mode⟩ counting p t w₂).2 := by
  obtain ⟨hanswer, hmachines⟩ := c.tandem.start mode counting p ⟨rfl, ht⟩ hw
  exact ⟨hanswer, hmachines.coupled⟩

end Coupling
end CapLang
