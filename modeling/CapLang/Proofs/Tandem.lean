import CapLang.Proofs.Akin
import CapLang.Proofs.Unfolding
import CapLang.Runner

/-!
# Two evaluations in tandem

Two terms that look different may evaluate alike, step by step: because they have other names for
the same things, because one spells out what the other binds, or because they are one term in two
environments.  A `Tandem` says what the two sides may differ in: `N` relates their names, `V` their
values, `S` the terms together with their environments, `St` their stamps and `W` their worlds.  It
demands that `S` can be followed for one layer of terms (`Layer`), into the bodies of functions and
through host objects.  Then the two evaluations stay abreast (`Tandem.eval`): both stop with the
very same fault, or both give values and these are related; and the machines agree in what they
counted and, up to names, in the calls under way.
-/
namespace CapLang

open Relator (BiUnique)
open Value (FaithfulUnder)

/-! ## Ends and steps -/

/-- Two answers are related values, or there is none for one and the same reason. -/
inductive SameAnswer {ε : Type} (V : Value → Value → Prop) :
    Except ε Value → Except ε Value → Prop
  | value {v w : Value} (result : V v w) : SameAnswer V (.ok v) (.ok w)
  | error (e : ε) : SameAnswer V (.error e) (.error e)

/-- **Two evaluations end alike**: with related results or with one and the same stop, and on
related machines. -/
inductive EndsAlike {α β : Type} (M : Machine → Machine → Prop) (R : α → β → Prop) :
    EStateM.Result Stop Machine α → EStateM.Result Stop Machine β → Prop
  | ok {a : α} {b : β} {m₁ m₂ : Machine} (result : R a b) (machines : M m₁ m₂) :
      EndsAlike M R (.ok a m₁) (.ok b m₂)
  | stop (stop : Stop) {m₁ m₂ : Machine} (machines : M m₁ m₂) :
      EndsAlike M R (.error stop m₁) (.error stop m₂)

/-- Two steps end alike on related machines. -/
def Eval.Abreast {α β : Type} (M : Machine → Machine → Prop) (R : α → β → Prop) (x : Eval α)
    (y : Eval β) : Prop :=
  ∀ m₁ m₂ : Machine, M m₁ m₂ → EndsAlike M R (x m₁) (y m₂)

namespace Eval

variable {α β γ δ : Type} {M : Machine → Machine → Prop} {R : α → β → Prop} {R' : γ → δ → Prop}

theorem Abreast.bind {x : Eval α} {y : Eval β} {f : α → Eval γ} {g : β → Eval δ}
    (h : Abreast M R x y) (hf : ∀ a b, R a b → Abreast M R' (f a) (g b)) :
    Abreast M R' (x >>= f) (y >>= g) := by
  intro m₁ m₂ hm
  have hfirst := h m₁ m₂ hm
  generalize hr₁ : x m₁ = r₁ at hfirst
  generalize hr₂ : y m₂ = r₂ at hfirst
  cases hfirst with
  | ok result machines =>
    rw [bind_of_ok hr₁, bind_of_ok hr₂]
    exact hf _ _ result _ _ machines
  | stop stop machines =>
    rw [bind_of_error hr₁, bind_of_error hr₂]
    exact .stop stop machines

theorem abreast_pure {a : α} {b : β} (h : R a b) : Abreast M R (pure a) (pure b) :=
  fun _ _ hm => .ok h hm

theorem abreast_throw (stop : Stop) : Abreast M R (throw stop) (throw stop) :=
  fun _ _ hm => .stop stop hm

end Eval

/-! ## Machines -/

section Machines

variable (N : Name → Name → Prop)

/-- Two calls are made from one place, of functions with corresponding names. -/
structure Call.Akin (c d : Call) : Prop where
  callee : Option.Rel N c.callee d.callee
  span : c.span = d.span

/-- The calls under way are the same up to names, and so is the limit on their number. -/
structure CallStack.Akin (s t : CallStack) : Prop where
  calls : List.Forall₂ (Call.Akin N) s.calls t.calls
  limit : s.limit? = t.limit?

/-- The machines agree in their counters and, up to names, in the calls under way; their worlds are
related. -/
structure Machine.Akin (W : World → World → Prop) (m₁ m₂ : Machine) : Prop where
  stack : m₁.stack.Akin N m₂.stack
  counters : m₁.counters = m₂.counters
  world : W m₁.world m₂.world

end Machines

namespace CallStack.Akin

variable {N : Name → Name → Prop} {s t : CallStack}

theorem depth_eq (h : s.Akin N t) : s.depth = t.depth := by
  rw [s.depth_eq, t.depth_eq, h.calls.length_eq]

theorem room_eq (h : s.Akin N t) (p : Nat) : s.room p = t.room p := by
  unfold CallStack.room
  rw [h.limit, h.depth_eq]

theorem add (h : s.Akin N t) {c d : Call} (hcd : c.Akin N d) : (s.add c).Akin N (t.add d) :=
  ⟨.cons hcd h.calls, h.limit⟩

theorem pop (h : s.Akin N t) : s.pop.Akin N t.pop where
  calls := by
    have hcalls := h.calls
    show List.Forall₂ (Call.Akin N) s.calls.tail t.calls.tail
    generalize s.calls = cs at hcalls ⊢
    generalize t.calls = ds at hcalls ⊢
    cases hcalls with
    | nil => exact .nil
    | cons head rest => exact rest
  limit := h.limit

variable {names₁ names₂ : NameTable} (hspelled : SpelledAlike N names₁ names₂)
include hspelled

/-- The two stacks are reported alike. -/
theorem capture_eq (h : s.Akin N t) : s.capture names₁ = t.capture names₂ := by
  have hcalls := h.calls
  unfold CallStack.capture
  congr 1
  generalize s.calls = cs at hcalls ⊢
  generalize t.calls = ds at hcalls ⊢
  induction hcalls with
  | nil => rfl
  | @cons c d cs ds head rest ih =>
    have hcallee := head.callee
    rw [List.map_cons, List.map_cons, ih, head.span]
    generalize c.callee = x at hcallee ⊢
    generalize d.callee = y at hcallee ⊢
    cases hcallee with
    | none => rfl
    | some hxy => simp only [Option.map_some, hspelled _ _ hxy]

theorem leaving_eq (h : s.Akin N t) (stop : Stop) :
    stop.leaving names₁ s = stop.leaving names₂ t := by
  have hempty : s.isEmpty = t.isEmpty := by
    have hcalls := h.calls
    unfold CallStack.isEmpty
    generalize s.calls = cs at hcalls ⊢
    generalize t.calls = ds at hcalls ⊢
    cases hcalls <;> rfl
  cases stop with
  | fault f => simp only [Stop.leaving, CallStack.attach, hempty, h.capture_eq hspelled]
  | exhausted => rfl

end CallStack.Akin

/-- Functions that are called alike are reported alike. -/
theorem Code.Akin.callee_eq {N : Name → Name → Prop} {c₁ c₂ : Code} (h : c₁.Akin N c₂)
    {names₁ names₂ : NameTable} (hspelled : SpelledAlike N names₁ names₂) :
    c₁.callee names₁ = c₂.callee names₂ := by
  have hname := h.name
  unfold Code.callee
  generalize c₁.name? = found₁ at hname ⊢
  generalize c₂.name? = found₂ at hname ⊢
  cases hname with
  | none => rfl
  | some hxy => simp only [hspelled _ _ hxy]

namespace Eval

variable {N : Name → Name → Prop} {W : World → World → Prop} {α β : Type} {R : α → β → Prop}

theorem abreast_count (f : Counters → Counters) :
    Abreast (Machine.Akin N W) (fun _ _ => True) (count f) (count f) :=
  fun _ _ hm => .ok trivial ⟨hm.stack, congrArg (Option.map f) hm.counters, hm.world⟩

/-- A call is left on both sides, and a fault gets the same backtrace. -/
theorem Abreast.leaving {x : Eval α} {y : Eval β} (h : Abreast (Machine.Akin N W) R x y)
    {names₁ names₂ : NameTable} (hspelled : SpelledAlike N names₁ names₂) :
    Abreast (Machine.Akin N W) R (Eval.leaving names₁ x) (Eval.leaving names₂ y) := by
  intro m₁ m₂ hm
  have hend := h m₁ m₂ hm
  generalize hr₁ : x m₁ = r₁ at hend
  generalize hr₂ : y m₂ = r₂ at hend
  cases hend with
  | ok result machines =>
    rw [leaving_of_ok hr₁, leaving_of_ok hr₂]
    exact .ok result ⟨machines.stack.pop, machines.counters, machines.world⟩
  | stop stop machines =>
    rw [leaving_of_error hr₁, leaving_of_error hr₂, machines.stack.leaving_eq hspelled]
    exact .stop _ ⟨machines.stack.pop, machines.counters, machines.world⟩

end Eval

/-! ## Layers -/

/-- The value of a term that has one at once. -/
def Term.immediate? (env : Env) : Term → Option Value
  | .literal _ l => some (.ofLiteral l)
  | .var _ x => env.lookup x
  | .lambda _ id header body => some (.closure (.lambda id header body) env)
  | _ => none

theorem Term.evalWith_immediate {cx : Context} {call : CallRule} {level : Nat} {env : Env}
    {t : Term} {v : Value} (h : t.immediate? env = some v) :
    t.evalWith cx call level env = Eval.count .term >>= fun _ => pure v := by
  unfold Term.immediate? at h
  split at h
  · cases h
    simp only [Term.evalWith]
  · simp only [Term.evalWith, h]
  · cases h
    simp only [Term.evalWith]
  · cases h

/-- **Two terms begin alike**: both have values at once and these are related, or the terms are of
one form and read from one place, and what they are made of goes on alike in the environments that
it is evaluated in. -/
inductive Layer (N : Name → Name → Prop) (V : Value → Value → Prop)
    (S : Env → Env → Term → Term → Prop) (St : Stamp → Stamp → Prop) (env₁ env₂ : Env) :
    Term → Term → Prop
  | value {t u : Term} {v w : Value} (left : t.immediate? env₁ = some v)
      (right : u.immediate? env₂ = some w) (related : V v w) : Layer N V S St env₁ env₂ t u
  | unbound {span : Option Span} {x y : Name} (name : N x y) (left : env₁.lookup x = none)
      (right : env₂.lookup y = none) : Layer N V S St env₁ env₂ (.var span x) (.var span y)
  | app {span : Option Span} {f g : Term} {as bs : List Term} (func : S env₁ env₂ f g)
      (args : List.Forall₂ (S env₁ env₂) as bs) :
      Layer N V S St env₁ env₂ (.app span f as) (.app span g bs)
  | letIn {span : Option Span} {x y : Name} {a b t u : Term} (value : S env₁ env₂ a b)
      (body : ∀ s₁ s₂ v w, St s₁ s₂ → V v w →
        S (env₁.extendMany s₁ [(x, v)]) (env₂.extendMany s₂ [(y, w)]) t u) :
      Layer N V S St env₁ env₂ (.letIn span x a t) (.letIn span y b u)
  | letRec {span : Option Span} {id₁ id₂ : CodeId} {fs gs : List (GroupHeader × Term)} {t u : Term}
      (body : ∀ s₁ s₂, St s₁ s₂ →
        S (env₁.bindGroup s₁ id₁ fs) (env₂.bindGroup s₂ id₂ gs) t u) :
      Layer N V S St env₁ env₂ (.letRec span id₁ fs t) (.letRec span id₂ gs u)
  | ifThenElse {span : Option Span} {c d t u t' u' : Term} (cond : S env₁ env₂ c d)
      (thenBranch : S env₁ env₂ t u) (elseBranch : S env₁ env₂ t' u') :
      Layer N V S St env₁ env₂ (.ifThenElse span c t t') (.ifThenElse span d u u')
  | caseOf {span : Option Span} {a b : Term} {as bs : List (Pattern × Term)}
      (scrutinee : S env₁ env₂ a b)
      (alternatives : List.Forall₂ (fun a b => a.1.Akin N b.1 ∧ ∀ s₁ s₂ vs ws, St s₁ s₂ →
        vs.map (·.1) = a.1.boundNames → Entrywise N V vs ws →
          S (env₁.extendMany s₁ vs) (env₂.extendMany s₂ ws) a.2 b.2) as bs) :
      Layer N V S St env₁ env₂ (.caseOf span a as) (.caseOf span b bs)
  | record {span : Option Span} {fs gs : List (Name × Term)}
      (fields : Entrywise N (S env₁ env₂) fs gs) :
      Layer N V S St env₁ env₂ (.record span fs) (.record span gs)
  | field {span : Option Span} {a b : Term} {x y : Name} (base : S env₁ env₂ a b)
      (name : N x y) : Layer N V S St env₁ env₂ (.field span a x) (.field span b y)
  | variant {span : Option Span} {t u : Name} {a b : Term} (tag : N t u)
      (payload : S env₁ env₂ a b) :
      Layer N V S St env₁ env₂ (.variant span t a) (.variant span u b)
  | prim {span : Option Span} {op₁ op₂ : Operator} {as bs : List Term} (operator : op₁.Akin N op₂)
      (args : List.Forall₂ (S env₁ env₂) as bs) :
      Layer N V S St env₁ env₂ (.prim span op₁ as) (.prim span op₂ bs)

/-! ## Tandems -/

/-- **What two evaluations may differ in.** -/
structure Tandem (cx₁ cx₂ : Context) (N : Name → Name → Prop) (V : Value → Value → Prop)
    (S : Env → Env → Term → Term → Prop) (St : Stamp → Stamp → Prop)
    (W : World → World → Prop) : Prop where
  oneToOne : BiUnique N
  spelled : SpelledAlike N cx₁.names cx₂.names
  faithful : FaithfulUnder N V
  literal : ∀ l, V (.ofLiteral l) (.ofLiteral l)
  layer : ∀ {env₁ env₂ t u}, S env₁ env₂ t u → Layer N V S St env₁ env₂ t u
  ofFields : ∀ {s₁ s₂ vs ws}, St s₁ s₂ → Entrywise N V vs ws →
    V (.ofFields s₁ vs) (.ofFields s₂ ws)
  variant : ∀ {t u v w}, N t u → V v w → V (.variant t v) (.variant u w)
  /-- A function is called in the environments that the two sides of it remember. -/
  body : ∀ {c₁ c₂ env₁ env₂} {args₁ args₂ : List Value},
    V (.closure c₁ env₁) (.closure c₂ env₂) → List.Forall₂ V args₁ args₂ →
      c₁.arity = args₁.length → ∀ s₁ s₂ s₁' s₂', St s₁ s₂ → St s₁' s₂' →
        S ((env₁.ofCode s₁ c₁).extendMany s₁' (c₁.params.zip args₁))
          ((env₂.ofCode s₂ c₂).extendMany s₂' (c₂.params.zip args₂)) c₁.body c₂.body
  stamp : ∀ {w₁ w₂}, W w₁ w₂ → St w₁.stamp.1 w₂.stamp.1 ∧ W w₁.stamp.2 w₂.stamp.2
  fetch : ∀ {env₁ env₂ span x y as bs}, N x y →
    S env₁ env₂ (.prim span (.capability x) as) (.prim span (.capability y) bs) →
      Option.Rel (fun h k => V (.capability h) (.capability k)) (cx₁.registry.find? x)
        (cx₂.registry.find? y)
  host : ∀ {h k method args₁ args₂ w₁ w₂}, V (.capability h) (.capability k) →
    List.Forall₂ V args₁ args₂ → W w₁ w₂ →
      SameAnswer V (cx₁.invoke w₁ h method args₁).1 (cx₂.invoke w₂ k method args₂).1 ∧
        W (cx₁.invoke w₁ h method args₁).2 (cx₂.invoke w₂ k method args₂).2

namespace Tandem

variable {cx₁ cx₂ : Context} {N : Name → Name → Prop} {V : Value → Value → Prop}
  {S : Env → Env → Term → Term → Prop} {St : Stamp → Stamp → Prop} {W : World → World → Prop}

section Steps

variable (c : Tandem cx₁ cx₂ N V S St W)
include c

theorem abreast_stamp : Eval.Abreast (Machine.Akin N W) St Eval.stamp Eval.stamp := by
  intro m₁ m₂ hm
  obtain ⟨hs, hw⟩ := c.stamp hm.world
  rw [Eval.stamp_apply, Eval.stamp_apply]
  exact .ok hs ⟨hm.stack, hm.counters, hw⟩

theorem abreast_bindNames (env₁ env₂ : Env) (vs ws : List (Name × Value)) :
    Eval.Abreast (Machine.Akin N W) (fun inner₁ inner₂ => ∃ s₁ s₂, St s₁ s₂ ∧
      inner₁ = env₁.extendMany s₁ vs ∧ inner₂ = env₂.extendMany s₂ ws)
      (Eval.bind env₁ vs) (Eval.bind env₂ ws) :=
  c.abreast_stamp.bind fun s₁ s₂ hs => Eval.abreast_pure ⟨s₁, s₂, hs, rfl, rfl⟩

/-- The bodies of two functions are evaluated in environments that suit them. -/
theorem abreast_bodyEnv {c₁ c₂ : Code} {env₁ env₂ : Env} {args₁ args₂ : List Value}
    (hcode : c₁.Akin N c₂) (hf : V (.closure c₁ env₁) (.closure c₂ env₂))
    (ha : List.Forall₂ V args₁ args₂) (hcount : c₁.arity = args₁.length) :
    Eval.Abreast (Machine.Akin N W) (fun inner₁ inner₂ => S inner₁ inner₂ c₁.body c₂.body)
      (Eval.bodyEnv c₁ env₁ args₁) (Eval.bodyEnv c₂ env₂ args₂) := by
  have hmember := hcode.isMember
  intro m₁ m₂ hm
  obtain ⟨hs, hw⟩ := c.stamp hm.world
  cases c₁ with
  | lambda id₁ h₁ b₁ =>
    cases c₂ with
    | lambda id₂ h₂ b₂ =>
      exact .ok (c.body hf ha hcount _ _ _ _ hs hs) ⟨hm.stack, hm.counters, hw⟩
    | member id₂ fs₂ i₂ => cases hmember
  | member id₁ fs₁ i₁ =>
    cases c₂ with
    | lambda id₂ h₂ b₂ => cases hmember
    | member id₂ fs₂ i₂ =>
      obtain ⟨hs', hw'⟩ := c.stamp hw
      exact .ok (c.body hf ha hcount _ _ _ _ hs hs') ⟨hm.stack, hm.counters, hw'⟩

/-- An operator that only computes comes to the same scalar or the same fault. -/
theorem compute {op₁ op₂ : Operator} (hop : op₁.Akin N op₂) {args₁ args₂ : List Value}
    (ha : List.Forall₂ V args₁ args₂) :
    SameAnswer V ((op₁.compute args₁).mapError Fault.ofCause)
      ((op₂.compute args₂).mapError Fault.ofCause) := by
  have hscalar := op₂.compute_scalar args₂
  rw [Operator.compute_akin c.faithful c.oneToOne hop ha]
  cases hx : op₂.compute args₂ with
  | ok v =>
    rw [hx] at hscalar
    obtain ⟨l, rfl⟩ := Value.literal_of_isScalar hscalar
    exact .value (c.literal l)
  | error cause => exact .error _

theorem apply {env₁ env₂ : Env} {span : Option Span} {op₁ op₂ : Operator} {as bs : List Term}
    (hS : S env₁ env₂ (.prim span op₁ as) (.prim span op₂ bs)) (hop : op₁.Akin N op₂)
    {args₁ args₂ : List Value} (ha : List.Forall₂ V args₁ args₂) {w₁ w₂ : World} (hw : W w₁ w₂) :
    SameAnswer V (op₁.apply cx₁ args₁ w₁).1 (op₂.apply cx₂ args₂ w₂).1 ∧
      W (op₁.apply cx₁ args₁ w₁).2 (op₂.apply cx₂ args₂ w₂).2 := by
  have hcompute := c.compute hop ha
  cases hop with
  | capability name =>
    cases ha with
    | nil =>
      have hfind := c.fetch name hS
      simp only [Operator.apply, c.spelled _ _ name]
      generalize cx₁.registry.find? _ = found₁ at hfind ⊢
      generalize cx₂.registry.find? _ = found₂ at hfind ⊢
      cases hfind with
      | none => exact ⟨.error _, hw⟩
      | some hh => exact ⟨.value hh, hw⟩
    | cons head rest => exact ⟨hcompute, hw⟩
  | invoke name =>
    cases ha with
    | nil => exact ⟨hcompute, hw⟩
    | cons head rest =>
      cases c.faithful _ _ head with
      | capability =>
        simp only [Operator.apply, c.spelled _ _ name]
        exact c.host head rest hw
      | _ => exact ⟨.error _, hw⟩
  | plain nameless =>
    cases op₁ with
    | capability x | invoke method => cases nameless
    | _ => exact ⟨hcompute, hw⟩

theorem abreast_operate {env₁ env₂ : Env} {span : Option Span} {op₁ op₂ : Operator}
    {as bs : List Term} (hS : S env₁ env₂ (.prim span op₁ as) (.prim span op₂ bs))
    (hop : op₁.Akin N op₂) {args₁ args₂ : List Value} (ha : List.Forall₂ V args₁ args₂)
    (site : Site) : Eval.Abreast (Machine.Akin N W) V (Eval.operate cx₁ op₁ args₁ site)
      (Eval.operate cx₂ op₂ args₂ site) := by
  intro m₁ m₂ hm
  obtain ⟨hanswer, hw⟩ := c.apply hS hop ha hm.world
  cases hr₁ : op₁.apply cx₁ args₁ m₁.world with
  | mk answer₁ w₁ =>
    cases hr₂ : op₂.apply cx₂ args₂ m₂.world with
    | mk answer₂ w₂ =>
      rw [hr₁, hr₂] at hanswer hw
      cases hanswer with
      | value result =>
        rw [Eval.operate_of_ok hr₁, Eval.operate_of_ok hr₂]
        exact .ok result ⟨hm.stack, hm.counters, hw⟩
      | error f =>
        rw [Eval.operate_of_error hr₁, Eval.operate_of_error hr₂]
        exact .stop _ ⟨hm.stack, hm.counters, hw⟩

end Steps
end Tandem

/-- The two ways of making a call stay abreast for related functions and arguments. -/
def AbreastCalls (N : Name → Name → Prop) (V : Value → Value → Prop) (W : World → World → Prop)
    (call₁ call₂ : CallRule) : Prop :=
  ∀ l₁ l₂ c₁ c₂ env₁ env₂ args₁ args₂ site, V (.closure c₁ env₁) (.closure c₂ env₂) →
    List.Forall₂ V args₁ args₂ → Eval.Abreast (Machine.Akin N W) V
      (call₁ l₁ c₁ env₁ args₁ site) (call₂ l₂ c₂ env₂ args₂ site)

namespace Tandem

variable {cx₁ cx₂ : Context} {N : Name → Name → Prop} {V : Value → Value → Prop}
  {S : Env → Env → Term → Term → Prop} {St : Stamp → Stamp → Prop} {W : World → World → Prop}
  {call₁ call₂ : CallRule}

mutual

/-- The evaluations of two terms stay abreast, if calls do. -/
theorem evalWith (c : Tandem cx₁ cx₂ N V S St W) (hcall : AbreastCalls N V W call₁ call₂)
    (l₁ l₂ : Nat) (env₁ env₂ : Env) : ∀ (t : Term) {u : Term}, S env₁ env₂ t u →
      Eval.Abreast (Machine.Akin N W) V (t.evalWith cx₁ call₁ l₁ env₁)
        (u.evalWith cx₂ call₂ l₂ env₂)
  | .literal span l, u, ht => by
    cases c.layer ht with
    | value left right related =>
      rw [Term.evalWith_immediate left, Term.evalWith_immediate right]
      exact (Eval.abreast_count _).bind fun _ _ _ => Eval.abreast_pure related
  | .lambda span id header body, u, ht => by
    cases c.layer ht with
    | value left right related =>
      rw [Term.evalWith_immediate left, Term.evalWith_immediate right]
      exact (Eval.abreast_count _).bind fun _ _ _ => Eval.abreast_pure related
  | .var span x, u, ht => by
    cases c.layer ht with
    | value left right related =>
      rw [Term.evalWith_immediate left, Term.evalWith_immediate right]
      exact (Eval.abreast_count _).bind fun _ _ _ => Eval.abreast_pure related
    | unbound name left right =>
      simp only [Term.evalWith, left, right, c.spelled _ _ name]
      exact (Eval.abreast_count _).bind fun _ _ _ => Eval.abreast_throw _
  | .app span f as, u, ht => by
    cases c.layer ht with
    | value left right related => cases left
    | app func args =>
      simp only [Term.evalWith, Eval.nested_eq]
      refine (Eval.abreast_count _).bind fun _ _ _ =>
        (evalWith c hcall _ _ env₁ env₂ f func).bind fun v w hv => ?_
      cases c.faithful v w hv with
      | closure code closed₁ closed₂ =>
        exact (evalAll c hcall _ _ env₁ env₂ as args).bind fun vs ws hvs =>
          hcall _ _ _ _ closed₁ closed₂ vs ws _ hv hvs
      | _ => exact Eval.abreast_throw _
  | .letIn span x a t, u, ht => by
    cases c.layer ht with
    | value left right related => cases left
    | letIn value body =>
      simp only [Term.evalWith, Eval.nested_eq]
      refine (Eval.abreast_count _).bind fun _ _ _ =>
        (evalWith c hcall _ _ env₁ env₂ a value).bind fun v w hv =>
          (c.abreast_bindNames env₁ env₂ _ _).bind fun inner₁ inner₂ hinner => ?_
      obtain ⟨s₁, s₂, hs, rfl, rfl⟩ := hinner
      exact evalWith c hcall _ _ _ _ t (body s₁ s₂ v w hs hv)
  | .letRec span id fs t, u, ht => by
    cases c.layer ht with
    | value left right related => cases left
    | letRec body =>
      simp only [Term.evalWith, Eval.nested_eq]
      exact (Eval.abreast_count _).bind fun _ _ _ => c.abreast_stamp.bind fun s₁ s₂ hs =>
        evalWith c hcall _ _ _ _ t (body s₁ s₂ hs)
  | .ifThenElse span a t t', u, ht => by
    cases c.layer ht with
    | value left right related => cases left
    | ifThenElse cond thenBranch elseBranch =>
      simp only [Term.evalWith, Eval.nested_eq]
      refine (Eval.abreast_count _).bind fun _ _ _ =>
        (evalWith c hcall _ _ env₁ env₂ a cond).bind fun v w hv => ?_
      cases c.faithful v w hv with
      | bool truth =>
        cases truth with
        | true => exact evalWith c hcall _ _ env₁ env₂ t thenBranch
        | false => exact evalWith c hcall _ _ env₁ env₂ t' elseBranch
      | _ => exact Eval.abreast_throw _
  | .caseOf span a as, u, ht => by
    cases c.layer ht with
    | value left right related => cases left
    | caseOf scrutinee alternatives =>
      simp only [Term.evalWith, Eval.nested_eq]
      exact (Eval.abreast_count _).bind fun _ _ _ =>
        (evalWith c hcall _ _ env₁ env₂ a scrutinee).bind fun v w hv =>
          (Eval.abreast_count _).bind fun _ _ _ =>
            evalFirst c hcall _ _ env₁ env₂ _ hv as alternatives
  | .record span fs, u, ht => by
    cases c.layer ht with
    | value left right related => cases left
    | record fields =>
      simp only [Term.evalWith, Eval.nested_eq]
      exact (Eval.abreast_count _).bind fun _ _ _ =>
        (evalFields c hcall _ _ env₁ env₂ fs fields).bind fun vs ws hvs =>
          c.abreast_stamp.bind fun s₁ s₂ hs => Eval.abreast_pure (c.ofFields hs hvs)
  | .field span a x, u, ht => by
    cases c.layer ht with
    | value left right related => cases left
    | @field _ _ _ _ y base name =>
      simp only [Term.evalWith, Eval.nested_eq, c.spelled _ _ name]
      refine (Eval.abreast_count _).bind fun _ _ _ =>
        (evalWith c hcall _ _ env₁ env₂ a base).bind fun v w hv => ?_
      cases c.faithful v w hv with
      | @record s₁ s₂ vs ws fields =>
        have hfield := fields.field? c.oneToOne name
        show Eval.Abreast _ V (match Value.field? x vs with | some v => _ | none => _)
          (match Value.field? y ws with | some v => _ | none => _)
        generalize Value.field? x vs = found₁ at hfield ⊢
        generalize Value.field? y ws = found₂ at hfield ⊢
        cases hfield with
        | none => exact Eval.abreast_throw _
        | some hu => exact Eval.abreast_pure hu
      | _ => exact Eval.abreast_throw _
  | .variant span tag a, u, ht => by
    cases c.layer ht with
    | value left right related => cases left
    | variant htag payload =>
      simp only [Term.evalWith, Eval.nested_eq]
      exact (Eval.abreast_count _).bind fun _ _ _ =>
        (evalWith c hcall _ _ env₁ env₂ a payload).bind fun v w hv =>
          Eval.abreast_pure (c.variant htag hv)
  | .prim span op as, u, ht => by
    cases c.layer ht with
    | value left right related => cases left
    | prim operator args =>
      simp only [Term.evalWith, Eval.nested_eq]
      exact (Eval.abreast_count _).bind fun _ _ _ =>
        (evalAll c hcall _ _ env₁ env₂ as args).bind fun vs ws hvs =>
          (Eval.abreast_count _).bind fun _ _ _ => c.abreast_operate ht operator hvs _
termination_by structural t => t

theorem evalAll (c : Tandem cx₁ cx₂ N V S St W) (hcall : AbreastCalls N V W call₁ call₂)
    (l₁ l₂ : Nat) (env₁ env₂ : Env) : ∀ (ts : List Term) {us : List Term},
      List.Forall₂ (S env₁ env₂) ts us →
        Eval.Abreast (Machine.Akin N W) (List.Forall₂ V) (Term.evalAll cx₁ call₁ l₁ env₁ ts)
          (Term.evalAll cx₂ call₂ l₂ env₂ us)
  | [], _, .nil => by
    simp only [Term.evalAll]
    exact Eval.abreast_pure .nil
  | t :: ts, _, .cons ht hts => by
    simp only [Term.evalAll]
    exact (evalWith c hcall l₁ l₂ env₁ env₂ t ht).bind fun v w hv =>
      (evalAll c hcall l₁ l₂ env₁ env₂ ts hts).bind fun vs ws hvs =>
        Eval.abreast_pure (.cons hv hvs)
termination_by structural ts => ts

theorem evalFields (c : Tandem cx₁ cx₂ N V S St W) (hcall : AbreastCalls N V W call₁ call₂)
    (l₁ l₂ : Nat) (env₁ env₂ : Env) : ∀ (fs : List (Name × Term))
      {gs : List (Name × Term)}, Entrywise N (S env₁ env₂) fs gs →
        Eval.Abreast (Machine.Akin N W) (Entrywise N V) (Term.evalFields cx₁ call₁ l₁ env₁ fs)
          (Term.evalFields cx₂ call₂ l₂ env₂ gs)
  | [], _, .nil => by
    simp only [Term.evalFields]
    exact Eval.abreast_pure .nil
  | (_, t) :: fs, _, .cons key content rest => by
    simp only [Term.evalFields]
    exact (evalWith c hcall l₁ l₂ env₁ env₂ t content).bind fun v w hv =>
      (evalFields c hcall l₁ l₂ env₁ env₂ fs rest).bind fun vs ws hvs =>
        Eval.abreast_pure (.cons key hv hvs)
termination_by structural fs => fs

theorem evalFirst (c : Tandem cx₁ cx₂ N V S St W) (hcall : AbreastCalls N V W call₁ call₂)
    (l₁ l₂ : Nat) (env₁ env₂ : Env) (site : Site) {v w : Value} (hv : V v w) :
    ∀ (as : List (Pattern × Term)) {bs : List (Pattern × Term)},
      List.Forall₂ (fun a b => a.1.Akin N b.1 ∧ ∀ s₁ s₂ vs ws, St s₁ s₂ →
        vs.map (·.1) = a.1.boundNames → Entrywise N V vs ws →
          S (env₁.extendMany s₁ vs) (env₂.extendMany s₂ ws) a.2 b.2) as bs →
      Eval.Abreast (Machine.Akin N W) V (Term.evalFirst cx₁ call₁ l₁ env₁ site v as)
        (Term.evalFirst cx₂ call₂ l₂ env₂ site w bs)
  | [], _, .nil => by
    simp only [Term.evalFirst, c.faithful.text_eq c.spelled hv]
    exact Eval.abreast_throw _
  | (p, t) :: as, (q, _) :: _, .cons ⟨hpattern, hbody⟩ rest => by
    have hmatch := c.faithful.match?_rel c.oneToOne hpattern hv
    have hbound := fun vs => @Pattern.match?_bindings p v vs
    simp only [Term.evalFirst]
    generalize p.match? v = found₁ at hmatch hbound ⊢
    generalize q.match? w = found₂ at hmatch ⊢
    cases hmatch with
    | none => exact evalFirst c hcall l₁ l₂ env₁ env₂ site hv as rest
    | some hbindings =>
      refine (c.abreast_bindNames env₁ env₂ _ _).bind fun inner₁ inner₂ hinner => ?_
      obtain ⟨s₁, s₂, hs, rfl, rfl⟩ := hinner
      exact evalWith c hcall l₁ l₂ _ _ t (hbody s₁ s₂ _ _ hs (hbound _ rfl).1 hbindings)
termination_by structural as => as

end

section Calls

variable (c : Tandem cx₁ cx₂ N V S St W)
include c

/-- Calls are refused on both sides or entered on both. -/
theorem callWith {run₁ run₂ : Env → Term → Eval Value}
    (hrun : ∀ env₁ env₂ t u, S env₁ env₂ t u →
      Eval.Abreast (Machine.Akin N W) V (run₁ env₁ t) (run₂ env₂ u))
    {c₁ c₂ : Code} {env₁ env₂ : Env} {args₁ args₂ : List Value} (site : Site)
    (hf : V (.closure c₁ env₁) (.closure c₂ env₂)) (ha : List.Forall₂ V args₁ args₂) :
    Eval.Abreast (Machine.Akin N W) V (cx₁.callWith run₁ c₁ env₁ args₁ site)
      (cx₂.callWith run₂ c₂ env₂ args₂ site) := by
  obtain ⟨hcode⟩ : Nonempty (c₁.Akin N c₂) := by
    cases c.faithful _ _ hf with
    | closure code => exact ⟨code⟩
  by_cases hcount : c₁.arity = args₁.length
  · have hcount₂ : c₂.arity = args₂.length := hcode.arity.symm.trans (hcount.trans ha.length_eq)
    intro m₁ m₂ hm
    rcases m₁.admits_or_full with hadmits | ⟨limit, hl, hfull⟩
    · have hadmits₂ : m₂.Admits := by
        unfold Machine.Admits
        rw [← hm.stack.limit, ← hm.stack.depth_eq]
        exact hadmits
      rw [cx₁.callWith_entered run₁ env₁ site hcount hadmits,
        cx₂.callWith_entered run₂ env₂ site hcount₂ hadmits₂]
      have hentered : (m₁.entered ⟨c₁.name?, site.span⟩).Akin N W
          (m₂.entered ⟨c₂.name?, site.span⟩) :=
        ⟨hm.stack.add ⟨hcode.name, rfl⟩, by simp only [Machine.entered, hm.stack.depth_eq,
          hm.counters], hm.world⟩
      have hbody := (c.abreast_bodyEnv hcode hf ha hcount).bind fun inner₁ inner₂ hinner =>
        hrun inner₁ inner₂ c₁.body c₂.body hinner
      exact hbody.leaving c.spelled _ _ hentered
    · rw [cx₁.callWith_full run₁ env₁ site hcount hl hfull,
        cx₂.callWith_full run₂ env₂ site hcount₂ (hm.stack.limit ▸ hl)
          (hm.stack.depth_eq ▸ hfull)]
      exact .stop _ hm
  · have hcount₂ : ¬ c₂.arity = args₂.length :=
      fun h => hcount (hcode.arity.trans (h.trans ha.length_eq.symm))
    rw [cx₁.callWith_wrongCount run₁ env₁ site hcount,
      cx₂.callWith_wrongCount run₂ env₂ site hcount₂, hcode.callee_eq c.spelled, hcode.arity,
      ha.length_eq]
    exact Eval.abreast_throw _

theorem callWithin (room : Nat) :
    AbreastCalls N V W (cx₁.callWithin room) (cx₂.callWithin room) := by
  -- On the room for nested calls: the body of a call is evaluated with less.
  induction room with
  | zero =>
    intro l₁ l₂ c₁ c₂ env₁ env₂ args₁ args₂ site hf ha
    simp only [Context.callWithin]
    exact c.callWith (fun _ _ _ _ _ => Eval.abreast_throw _) site hf ha
  | succ room ih =>
    intro l₁ l₂ c₁ c₂ env₁ env₂ args₁ args₂ site hf ha
    simp only [Context.callWithin]
    exact c.callWith (fun env₁ env₂ t u ht => c.evalWith ih _ _ env₁ env₂ t ht) site hf ha

/-- **The two evaluations stay abreast.** -/
theorem eval (p : Nat) {env₁ env₂ : Env} {t u : Term} (ht : S env₁ env₂ t u) :
    Eval.Abreast (Machine.Akin N W) V (cx₁.eval p env₁ t) (cx₂.eval p env₂ u) := by
  intro m₁ m₂ hm
  unfold Context.eval
  rw [hm.stack.room_eq p]
  exact c.evalWith (c.callWithin _) 0 0 env₁ env₂ t ht m₁ m₂ hm

/-- **Two runs stay abreast**, and so do their counters. -/
theorem start (mode : Mode) (counting : Bool) (p : Nat) {t u : Term} (ht : S .empty .empty t u)
    {w₁ w₂ : World} (hw : W w₁ w₂) :
    SameAnswer V (Runner.start ⟨cx₁, mode⟩ counting p t w₁).1
        (Runner.start ⟨cx₂, mode⟩ counting p u w₂).1 ∧
      (Runner.start ⟨cx₁, mode⟩ counting p t w₁).2.Akin N W
        (Runner.start ⟨cx₂, mode⟩ counting p u w₂).2 := by
  have hend := c.eval p ht (.start mode counting w₁) (.start mode counting w₂)
    ⟨⟨.nil, rfl⟩, rfl, hw⟩
  unfold Runner.start
  generalize cx₁.eval p .empty t (.start mode counting w₁) = r₁ at hend ⊢
  generalize cx₂.eval p .empty u (.start mode counting w₂) = r₂ at hend ⊢
  cases hend with
  | ok result machines => exact ⟨.value result, machines⟩
  | stop stop machines => exact ⟨.error stop, machines⟩

end Calls

end Tandem
end CapLang
