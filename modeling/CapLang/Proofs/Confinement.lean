import CapLang.Proofs.Coupling
import CapLang.Proofs.Hosts
import CapLang.Runner

/-!
# Confinement

A program gets at a host object only by fetching it, so what is registered under a name that the
program nowhere fetches makes no difference to it.  Handles may be kept in records, remembered by
functions and handed to other objects; the invariant is that no such handle is part of any value,
and that no function fetches the name (`Value.Confined`).  It holds of what host objects answer, if
they give out no handles and no functions but those they are given (`World.LendsNoMore`).
-/
namespace CapLang

open Value (Fieldwise Faithful)

/-! ## Names that are fetched -/

/-- The name that an operator fetches an object by, if it is one that fetches. -/
def Operator.fetched : Operator → List Name
  | capability x => [x]
  | _ => []

mutual

/-- **The names that a term fetches objects by**, in the bodies of functions too. -/
def Term.fetched : Term → List Name
  | .literal .. | .var .. => []
  | .lambda _ _ _ body => body.fetched
  | .app _ func args => func.fetched ++ Term.fetchedInAll args
  | .letIn _ _ value body => value.fetched ++ body.fetched
  | .letRec _ _ functions body => Term.fetchedInGroup functions ++ body.fetched
  | .ifThenElse _ c a b => c.fetched ++ (a.fetched ++ b.fetched)
  | .caseOf _ e alternatives => e.fetched ++ Term.fetchedInAlternatives alternatives
  | .record _ fields => Term.fetchedInFields fields
  | .field _ e _ => e.fetched
  | .variant _ _ e => e.fetched
  | .prim _ op args => op.fetched ++ Term.fetchedInAll args

/-- The names that terms fetch objects by. -/
def Term.fetchedInAll : List Term → List Name
  | [] => []
  | t :: ts => t.fetched ++ Term.fetchedInAll ts

/-- The names that the functions of a group fetch objects by. -/
def Term.fetchedInGroup : List (GroupHeader × Term) → List Name
  | [] => []
  | (_, body) :: rest => body.fetched ++ Term.fetchedInGroup rest

/-- The names that alternatives fetch objects by. -/
def Term.fetchedInAlternatives : List (Pattern × Term) → List Name
  | [] => []
  | (_, body) :: rest => body.fetched ++ Term.fetchedInAlternatives rest

/-- The names that field values fetch objects by. -/
def Term.fetchedInFields : List (Name × Term) → List Name
  | [] => []
  | (_, t) :: rest => t.fetched ++ Term.fetchedInFields rest

end

/-- The names that a function fetches objects by; for a member of a group, those of the group. -/
def Code.fetched : Code → List Name
  | .lambda _ _ body => body.fetched
  | .member _ functions _ => Term.fetchedInGroup functions

namespace Term

theorem fetchedInAll_eq (ts : List Term) : fetchedInAll ts = ts.flatMap fetched := by
  induction ts with
  | nil => rfl
  | cons t ts ih => rw [fetchedInAll, List.flatMap_cons, ih]

theorem fetchedInGroup_eq (functions : List (GroupHeader × Term)) :
    fetchedInGroup functions = functions.flatMap (·.2.fetched) := by
  induction functions with
  | nil => rfl
  | cons f rest ih => rw [fetchedInGroup, List.flatMap_cons, ih]

theorem fetchedInAlternatives_eq (alternatives : List (Pattern × Term)) :
    fetchedInAlternatives alternatives = alternatives.flatMap (·.2.fetched) := by
  induction alternatives with
  | nil => rfl
  | cons a rest ih => rw [fetchedInAlternatives, List.flatMap_cons, ih]

theorem fetchedInFields_eq (fields : List (Name × Term)) :
    fetchedInFields fields = fields.flatMap (·.2.fetched) := by
  induction fields with
  | nil => rfl
  | cons field rest ih => rw [fetchedInFields, List.flatMap_cons, ih]

end Term

/-- The body of a function fetches by no other names than the function. -/
theorem Code.fetched_body (code : Code) : ∀ x ∈ code.body.fetched, x ∈ code.fetched := by
  intro x hx
  cases code with
  | lambda id header body => exact hx
  | member id functions i =>
    rw [Code.body] at hx
    cases hi : functions[i]? with
    | none =>
      rw [hi] at hx
      cases hx
    | some f =>
      rw [hi] at hx
      rw [Code.fetched, Term.fetchedInGroup_eq]
      exact List.mem_flatMap.mpr ⟨f, List.mem_of_getElem? hi, hx⟩

/-! ## Values without the handle -/

/-- The value is no function that fetches by the name, and no handle but one that is registered
under another name. -/
def Value.Confined (r : Registry) (n : Name) : Value → Prop
  | closure code _ => n ∉ code.fetched
  | capability h => h.name ≠ n ∧ r.find? h.name = some h
  | _ => True

/-- Equal values, all parts of which are good. -/
def Value.Shared (good : Value → Prop) (v w : Value) : Prop := v = w ∧ v.All good

namespace Value

variable {good : Value → Prop} {r : Registry} {n : Name}

theorem shared_fields {fs gs : List (Name × Value)} (h : Fieldwise (Shared good) fs gs) :
    fs = gs ∧ ∀ f ∈ fs, f.2.All good := by
  induction h with
  | nil => exact ⟨rfl, List.forall_mem_nil _⟩
  | cons head rest ih =>
    obtain ⟨rfl, hv⟩ := head
    obtain ⟨rfl, hrest⟩ := ih
    exact ⟨rfl, List.forall_mem_cons.mpr ⟨hv, hrest⟩⟩

theorem shared_list {vs ws : List Value} (h : List.Forall₂ (Shared good) vs ws) :
    vs = ws ∧ ∀ v ∈ vs, v.All good := by
  induction h with
  | nil => exact ⟨rfl, List.forall_mem_nil _⟩
  | cons head rest ih =>
    obtain ⟨rfl, hv⟩ := head
    obtain ⟨rfl, hrest⟩ := ih
    exact ⟨rfl, List.forall_mem_cons.mpr ⟨hv, hrest⟩⟩

theorem fieldwise_shared {fs : List (Name × Value)} (h : ∀ f ∈ fs, f.2.All good) :
    Fieldwise (Shared good) fs fs := by
  induction fs with
  | nil => exact .nil
  | cons f fs ih =>
    obtain ⟨hf, hfs⟩ := List.forall_mem_cons.mp h
    exact .cons ⟨rfl, hf⟩ (ih hfs)

theorem shared_faithful : Faithful (Shared good) := by
  rintro v w ⟨rfl, h⟩
  cases v with
  | int n => exact .int n
  | bool b => exact .bool b
  | str s => exact .str s
  | unit => exact .unit
  | closure code env => exact .closure code env env
  | record stamp fields =>
    refine .record stamp stamp (fieldwise_shared fun f hf u hu => h u ?_)
    exact List.mem_cons_of_mem _ (mem_partsOfFields.mpr ⟨f, hf, hu⟩)
  | variant tag payload =>
    exact .variant tag ⟨rfl, fun u hu => h u (List.mem_cons_of_mem _ hu)⟩
  | capability handle => exact .capability handle

/-- Only functions and handles can fail to be confined. -/
theorem all_confined {v : Value} :
    v.All (Confined r n) ↔ ∀ u ∈ v.parts, u.isFirstOrder = false → u.Confined r n := by
  constructor
  · exact fun h u hu _ => h u hu
  · intro h u hu
    cases u with
    | closure code env => exact h _ hu rfl
    | capability handle => exact h _ hu rfl
    | _ => trivial

theorem confined_of_isScalar {v : Value} (h : v.isScalar) : v.All (Confined r n) := by
  intro u hu
  rw [parts_of_isFlat (isFlat_of_isScalar h), List.mem_singleton] at hu
  subst hu
  cases u <;> trivial

end Value

/-! ## Host objects -/

namespace World

/-- **The lent objects give out nothing of their own.**  Every function and every handle in an
answer of theirs is part of an argument that some object got, with this call or with one since the
world was this one. -/
def LendsNoMore (w : World) (lent : ObjectId → Prop) : Prop :=
  ∀ id, lent id → ∀ kind answer, w.object? id = some (.custom kind answer) →
    ∀ later method args v, answer (later ++ w.calls) method args = .ok v →
      ∀ u ∈ v.parts, u.isFirstOrder = false →
        (∃ a ∈ args, u ∈ a.parts) ∨ ∃ call ∈ later, ∃ a ∈ call.args, u ∈ a.parts

/-- Since `start`, objects were called through registered handles of other names only, and were
told of no others. -/
structure Keeps (r : Registry) (n : Name) (start w : World) : Prop where
  lent : ∀ id kind answer, w.object? id = some (.custom kind answer) →
    start.object? id = some (.custom kind answer)
  received : ∃ later, w.calls = later ++ start.calls ∧ ∀ call ∈ later,
    (Value.capability call.handle).Confined r n ∧ ∀ a ∈ call.args, a.All (Value.Confined r n)

namespace Keeps

variable {r : Registry} {n : Name} {start w : World}

theorem refl (w : World) : w.Keeps r n w := ⟨fun _ _ _ h => h, [], rfl, nofun⟩

variable (hw : start.Keeps r n w) (h : Handle) (method : String) {args : List Value}
  (ha : ∀ a ∈ args, a.All (Value.Confined r n))
include hw ha

theorem invoke (hh : (Value.capability h).Confined r n) :
    start.Keeps r n (w.invoke h method args).2 := by
  refine ⟨fun id kind answer hobject => hw.lent id kind answer ?_, ?_⟩
  · exact w.custom_object?_invoke h method args hobject
  · obtain ⟨later, hcalls, hlater⟩ := hw.received
    refine ⟨⟨h, method, args⟩ :: later, ?_, List.forall_mem_cons.mpr ⟨⟨hh, ha⟩, hlater⟩⟩
    rw [invoke_calls, hcalls, List.cons_append]

/-- **What a lent object answers is confined.** -/
theorem invoke_ok {lent : ObjectId → Prop} (hstart : start.LendsNoMore lent)
    (hlent : lent h.object) {v : Value} (hv : (w.invoke h method args).1 = .ok v) :
    v.All (Value.Confined r n) := by
  have hanswer := w.invoke_answers h method args
  rw [hv] at hanswer
  generalize hr : (Except.ok v : Except Fault Value) = answered at hanswer
  cases hanswer with
  | @custom kind answer found =>
    obtain ⟨later, hcalls, hlater⟩ := hw.received
    rw [hcalls] at hr
    have hobject := hw.lent h.object kind answer found
    have hparts := hstart h.object hlent kind answer hobject later method args v hr.symm
    -- Every function and every handle in the answer was received, now or earlier.
    refine Value.all_confined.mpr fun u hu hfirst => ?_
    rcases hparts u hu hfirst with ⟨a, hmem, hpart⟩ | ⟨call, hcall, a, hmem, hpart⟩
    · exact ha a hmem u hpart
    · exact (hlater call hcall).2 a hmem u hpart
  | written =>
    cases hr
    exact Value.confined_of_isScalar rfl
  | text s =>
    cases hr
    exact Value.confined_of_isScalar rfl
  | @refused cause plain => cases hr

end Keeps
end World

/-! ## Evaluation with and without the object -/

/-- What is registered under a name has that name. -/
theorem Registry.name_of_find? {r : Registry} {x : Name} {h : Handle} (hfind : r.find? x = some h) :
    h.name = x := by
  have hname := List.find?_some hfind
  exact beq_iff_eq.mp hname

/-- To register a handle changes what is registered under its name, and nothing else. -/
theorem Registry.find?_register_of_ne (r : Registry) {h : Handle} {x : Name} (hx : x ≠ h.name) :
    (r.register h).find? x = r.find? x := by
  have hself : (h.name == x) = false := by
    rw [beq_eq_false_iff_ne]
    exact hx.symm
  have hothers : (fun k : Handle => decide ((k.name != h.name) = true ∧ (k.name == x) = true)) =
      fun k => k.name == x := by
    funext k
    by_cases hk : k.name = x
    · simp [hk, hx]
    · simp [hk]
  simp only [find?, register, List.find?_append, List.find?_filter, hothers, List.find?_cons, hself,
    List.find?_nil, Option.or_none]

/-- The objects that are registered under other names. -/
def Registry.LendsBeside (r : Registry) (n : Name) (id : ObjectId) : Prop :=
  ∃ x h, x ≠ n ∧ r.find? x = some h ∧ h.object = id

/-- The two environments are equal, nothing in them is a handle of the name, and the term does not
fetch one. -/
structure Term.Without (r : Registry) (n : Name) (env₁ env₂ : Env) (t : Term) : Prop where
  same : env₁ = env₂
  confined : env₁.All (Value.Confined r n)
  absent : n ∉ t.fetched

namespace Term.Without

variable {r : Registry} {n : Name} {env₁ env₂ : Env} {t u : Term}

theorem part (h : Without r n env₁ env₂ t) (hpart : ∀ x ∈ u.fetched, x ∈ t.fetched) :
    Without r n env₁ env₂ u :=
  ⟨h.same, h.confined, fun hmem => h.absent (hpart n hmem)⟩

/-- A part of the term, within the names that it binds. -/
theorem extendMany (h : Without r n env₁ env₂ t) (hpart : ∀ x ∈ u.fetched, x ∈ t.fetched)
    (s : Stamp) {bs₁ bs₂ : List (Name × Value)}
    (hbindings : Fieldwise (Value.Shared (Value.Confined r n)) bs₁ bs₂) :
    Without r n (env₁.extendMany s bs₁) (env₂.extendMany s bs₂) u := by
  obtain ⟨rfl, hall⟩ := Value.shared_fields hbindings
  obtain rfl := h.same
  exact ⟨rfl, h.confined.extendMany s hall, fun hmem => h.absent (hpart n hmem)⟩

end Term.Without

/-- **What is registered under a name that is not fetched makes no difference.** -/
theorem confinement_coupling (names : NameTable) {r₁ r₂ : Registry} {n : Name}
    (hbeside : ∀ x, x ≠ n → r₂.find? x = r₁.find? x) {start : World}
    (hstart : start.LendsNoMore (r₁.LendsBeside n)) :
    Coupling ⟨names, r₁, World.invoke⟩ ⟨names, r₂, World.invoke⟩
      (Value.Shared (Value.Confined r₁ n)) (Term.Without r₁ n) (· = ·)
      (fun w₁ w₂ => w₁ = w₂ ∧ start.Keeps r₁ n w₁) where
  names := rfl
  faithful := Value.shared_faithful
  literal l := by
    refine ⟨rfl, Value.confined_of_isScalar ?_⟩
    cases l <;> rfl
  var {env₁ env₂ span x} h := by
    obtain rfl := h.same
    cases hx : env₁.lookup x with
    | none => exact .none
    | some v => exact .some ⟨rfl, h.confined.lookup hx⟩
  lambda h := by
    obtain rfl := h.same
    exact ⟨rfl, Value.all_closure.mpr ⟨h.absent, h.confined⟩⟩
  app h := by
    refine ⟨h.part fun x hx => List.mem_append_left _ hx, fun a ha => h.part fun x hx => ?_⟩
    rw [Term.fetched, Term.fetchedInAll_eq]
    exact List.mem_append_right _ (List.mem_flatMap.mpr ⟨a, ha, hx⟩)
  letIn h := by
    refine ⟨h.part fun x hx => List.mem_append_left _ hx, ?_⟩
    rintro s _ v w rfl hv
    exact h.extendMany (fun x hx => List.mem_append_right _ hx) s (.cons hv .nil)
  letRec {env₁ env₂ span id functions body} h := by
    rintro s _ rfl
    have hgroup : n ∉ Term.fetchedInGroup functions :=
      fun hmem => h.absent (List.mem_append_left _ hmem)
    obtain rfl := h.same
    refine ⟨rfl, h.confined.bindGroup s fun _ _ => hgroup, fun hmem => h.absent ?_⟩
    exact List.mem_append_right _ hmem
  ifThenElse h := by
    refine ⟨h.part fun x hx => ?_, h.part fun x hx => ?_, h.part fun x hx => ?_⟩
    · exact List.mem_append_left _ hx
    · exact List.mem_append_right _ (List.mem_append_left _ hx)
    · exact List.mem_append_right _ (List.mem_append_right _ hx)
  caseOf h := by
    refine ⟨h.part fun x hx => List.mem_append_left _ hx, ?_⟩
    rintro p body hmem s _ bs₁ bs₂ rfl _ hbindings
    refine h.extendMany (fun x hx => ?_) s hbindings
    rw [Term.fetched, Term.fetchedInAlternatives_eq]
    exact List.mem_append_right _ (List.mem_flatMap.mpr ⟨_, hmem, hx⟩)
  record h u hu := by
    refine h.part fun x hx => ?_
    obtain ⟨field, hfield, rfl⟩ := List.mem_map.mp hu
    rw [Term.fetched, Term.fetchedInFields_eq]
    exact List.mem_flatMap.mpr ⟨field, hfield, hx⟩
  ofFields {s₁ s₂ fs gs} hs hfields := by
    subst hs
    obtain ⟨rfl, hall⟩ := Value.shared_fields hfields
    refine ⟨rfl, fun u hu => ?_⟩
    rcases Value.parts_of_ofFields hu with rfl | ⟨f, hf, hu⟩
    · cases fs <;> trivial
    · exact hall f hf u hu
  field h := h.part fun _ hx => hx
  payload h := h.part fun _ hx => hx
  variant {tag v w} h := by
    obtain ⟨rfl, hv⟩ := h
    refine ⟨rfl, fun u hu => ?_⟩
    rcases List.mem_cons.mp hu with rfl | hu
    · trivial
    · exact hv u hu
  prim h a ha := by
    refine h.part fun x hx => ?_
    rw [Term.fetched, Term.fetchedInAll_eq]
    exact List.mem_append_right _ (List.mem_flatMap.mpr ⟨a, ha, hx⟩)
  body {code env₁ env₂ args₁ args₂} hf ha _ := by
    rintro s _ s' _ rfl rfl
    obtain ⟨heq, hall⟩ := hf
    cases heq
    obtain ⟨hcode, henv⟩ := Value.all_closure.mp hall
    have hbindings := Fieldwise.zip ha code.params
    have hcall : Term.Without r₁ n (env₁.ofCode s code) (env₁.ofCode s code) code.body := by
      refine ⟨rfl, ?_, fun hmem => hcode (code.fetched_body n hmem)⟩
      cases code with
      | lambda id header body => exact henv
      | member id functions i => exact henv.bindGroup s fun _ _ => hcode
    exact hcall.extendMany (fun _ hx => hx) s' hbindings
  stamp {w₁ w₂} hw := by
    obtain ⟨rfl, hkeeps⟩ := hw
    exact ⟨rfl, rfl, hkeeps.lent, hkeeps.received⟩
  fetch {env₁ env₂ span x args} h := by
    have hx : x ≠ n := by
      rintro rfl
      exact h.absent (List.mem_append_left _ List.mem_cons_self)
    show Option.Rel _ (r₁.find? x) (r₂.find? x)
    rw [hbeside x hx]
    cases hfind : r₁.find? x with
    | none => exact .none
    | some handle =>
      have hname := Registry.name_of_find? hfind
      refine .some ⟨rfl, fun u hu => ?_⟩
      obtain rfl := List.mem_singleton.mp hu
      exact ⟨by rwa [hname], by rwa [hname]⟩
  host {handle method args₁ args₂ w₁ w₂} hh ha hw := by
    obtain ⟨rfl, hkeeps⟩ := hw
    obtain ⟨rfl, hargs⟩ := Value.shared_list ha
    have hconfined : (Value.capability handle).Confined r₁ n := hh.2 _ List.mem_cons_self
    have hlent : r₁.LendsBeside n handle.object :=
      ⟨handle.name, handle, hconfined.1, hconfined.2, rfl⟩
    refine ⟨?_, rfl, hkeeps.invoke handle method hargs hconfined⟩
    show SameAnswer _ (w₁.invoke handle method args₁).1 (w₁.invoke handle method args₁).1
    cases hanswer : (w₁.invoke handle method args₁).1 with
    | ok v => exact .value ⟨rfl, hkeeps.invoke_ok handle method hargs hstart hlent hanswer⟩
    | error f => exact .error f

/-- Without the object behind the name, the run is the very same. -/
theorem Runner.start_confined {names : NameTable} {r₁ r₂ : Registry} {n : Name}
    (hbeside : ∀ x, x ≠ n → r₂.find? x = r₁.find? x) {w : World}
    (hlends : w.LendsNoMore (r₁.LendsBeside n)) {t : Term} (habsent : n ∉ t.fetched) (mode : Mode)
    (counting : Bool) (p : Nat) :
    Runner.start ⟨⟨names, r₁, World.invoke⟩, mode⟩ counting p t w =
        Runner.start ⟨⟨names, r₂, World.invoke⟩, mode⟩ counting p t w ∧
      w.Keeps r₁ n (Runner.start ⟨⟨names, r₁, World.invoke⟩, mode⟩ counting p t w).2.world := by
  have ht : Term.Without r₁ n .empty .empty t := ⟨rfl, nofun, habsent⟩
  obtain ⟨houtcome, hmachine⟩ :=
    (confinement_coupling names hbeside hlends).start mode counting p ht ⟨rfl, .refl w⟩
  generalize Runner.start ⟨⟨names, r₁, World.invoke⟩, mode⟩ counting p t w = s₁
    at houtcome hmachine ⊢
  generalize Runner.start ⟨⟨names, r₂, World.invoke⟩, mode⟩ counting p t w = s₂
    at houtcome hmachine ⊢
  obtain ⟨outcome₁, stack, counters, world⟩ := s₁
  obtain ⟨outcome₂, stack', counters', world'⟩ := s₂
  obtain ⟨rfl, rfl, rfl, hkeeps⟩ := hmachine
  cases houtcome with
  | value result =>
    obtain ⟨rfl, -⟩ := result
    exact ⟨rfl, hkeeps⟩
  | error stop => exact ⟨rfl, hkeeps⟩

/-- **Confinement.**  What is registered under a name that a program nowhere fetches, if anything,
makes no difference: the outcome, the counters and the world with all its calls are the same.  No
call is made through a handle of that name; every call is made through a handle that is registered
under another one.  The other objects must give out no handles and no functions of their own. -/
theorem capability_confinement (names : NameTable) (r₁ r₂ : Registry) (n : Name) (mode : Mode)
    (p : Nat) (t : Term) (w : World) (habsent : n ∉ t.fetched)
    (hbeside : ∀ x, x ≠ n → r₂.find? x = r₁.find? x)
    (hlends : w.LendsNoMore (r₁.LendsBeside n)) :
    let with₁ : Runner := ⟨⟨names, r₁, World.invoke⟩, mode⟩
    let with₂ : Runner := ⟨⟨names, r₂, World.invoke⟩, mode⟩
    with₁.run p t w = with₂.run p t w ∧ with₁.runProfiled p t w = with₂.runProfiled p t w ∧
      ∃ later, (with₁.run p t w).2.calls = later ++ w.calls ∧ ∀ call ∈ later,
        call.handle.name ≠ n ∧ r₁.find? call.handle.name = some call.handle := by
  intro with₁ with₂
  obtain ⟨hplain, hkeeps⟩ := Runner.start_confined hbeside hlends habsent mode false p
  obtain ⟨hcounting, -⟩ := Runner.start_confined hbeside hlends habsent mode true p
  refine ⟨?_, ?_, ?_⟩
  · rw [Runner.run, Runner.run, hplain]
  · rw [Runner.runProfiled, Runner.runProfiled, hcounting]
  · obtain ⟨later, hcalls, hlater⟩ := hkeeps.received
    exact ⟨later, hcalls, fun call hcall => (hlater call hcall).1⟩

/-- Handles and functions go through one object, and an object that gives out handles of its own is
lent beside it, under a name that the program does not fetch. -/
theorem unfetched_object_confined :
    let names : NameTable := ⟨#["", "echo", "give", "keys", "h"]⟩
    let echo : Handle := ⟨⟨1⟩, ⟨0⟩, "Echo"⟩
    let keys : Handle := ⟨⟨3⟩, ⟨1⟩, "Keys"⟩
    let w : World := (Echo.world.add (.custom "Keys" fun _ _ _ => .ok (.capability keys))).2
    let r₂ : Registry := Registry.empty.register echo
    let r₁ : Registry := r₂.register keys
    let t : Term := .letIn none ⟨4⟩ (.prim none (.capability ⟨1⟩) [])
      (.prim none (.invoke ⟨2⟩) [.var none ⟨4⟩, .lambda none ⟨0⟩ ⟨none, []⟩ (.var none ⟨4⟩)])
    ⟨3⟩ ∉ t.fetched ∧ (∀ x, x ≠ ⟨3⟩ → r₂.find? x = r₁.find? x) ∧
      w.LendsNoMore (r₁.LendsBeside ⟨3⟩) ∧ r₁.find? ⟨3⟩ ≠ r₂.find? ⟨3⟩ ∧
      Runner.runProfiled ⟨⟨names, r₁, World.invoke⟩, .interpret⟩ 0 t w =
        Runner.runProfiled ⟨⟨names, r₂, World.invoke⟩, .interpret⟩ 0 t w := by
  intro names echo keys w r₂ r₁ t
  have habsent : (⟨3⟩ : Name) ∉ t.fetched := by decide
  have hbeside : ∀ x, x ≠ ⟨3⟩ → r₂.find? x = r₁.find? x :=
    fun x hx => (r₂.find?_register_of_ne hx).symm
  have hlends : w.LendsNoMore (r₁.LendsBeside ⟨3⟩) := by
    rintro id ⟨x, h, hx, hfound, rfl⟩ kind answer hobject later method args v hv u hu -
    -- The only handle of another name leads to the object that gives back what it gets.
    rw [← hbeside x hx] at hfound
    obtain rfl := List.mem_singleton.mp (List.mem_of_find?_eq_some hfound)
    cases hobject
    exact .inl (Echo.answer_parts hv u hu)
  have hconfined := capability_confinement names r₁ r₂ ⟨3⟩ .interpret 0 t w habsent hbeside hlends
  exact ⟨habsent, hbeside, hlends, by decide, hconfined.2.1⟩

end CapLang
