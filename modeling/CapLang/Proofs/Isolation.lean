import CapLang.Proofs.Coupling
import CapLang.Proofs.Hosts
import CapLang.Proofs.Unstamped

/-!
# Isolation

Runs that share writers, and readers of fixed texts, do not observe each other.  Others may write
to the same objects between two calls of a run (`World.invokeShared`); compared with the run alone
on fresh objects, the values are equal without their stamps, the faults are the same, and so are
the texts that the run writes (`World.Apart`).  What an object keeps in the end is what it kept
before, followed by these texts and those of the others in the order of writing.
-/
namespace CapLang

open Value (Fieldwise Faithful)

/-! ## Passive objects -/

namespace Object

/-- A writer, or a reader that reads the same text every time. -/
def isPassive : Object → Bool
  | writer _ | reader (.text _) => true
  | _ => false

@[simp] theorem cleared_added (object : Object) (s : String) :
    (object.added s).cleared = object.cleared := by
  cases object with
  | writer sink => cases sink <;> rfl
  | _ => rfl

@[simp] theorem cleared_cleared (object : Object) : object.cleared.cleared = object.cleared := by
  cases object with
  | writer sink => cases sink <;> rfl
  | _ => rfl

theorem added_added (object : Object) (s t : String) :
    (object.added s).added t = object.added (s ++ t) := by
  cases object with
  | writer sink =>
    cases sink with
    | buffer written => simp only [added, String.append_assoc]
    | _ => rfl
  | _ => rfl

@[simp] theorem isPassive_cleared (object : Object) :
    object.cleared.isPassive = object.isPassive := by
  cases object with
  | writer sink => cases sink <;> rfl
  | _ => rfl

@[simp] theorem isPassive_added (object : Object) (s : String) :
    (object.added s).isPassive = object.isPassive := by
  cases object with
  | writer sink => cases sink <;> rfl
  | _ => rfl

end Object

namespace World

variable {w w₁ w₂ : World} {h : Handle} {object object₁ object₂ : Object}
  {args₁ args₂ : List Value}

/-- **Passive objects answer by their arguments alone**, whatever has been written. -/
theorem sameAnswer_of_passive {V : Value → Value → Prop} (hV : Faithful V)
    (hliteral : ∀ l, V (.ofLiteral l) (.ofLiteral l)) (h₁ : w₁.object? h.object = some object₁)
    (h₂ : w₂.object? h.object = some object₂) (hsame : object₁.cleared = object₂.cleared)
    (hpassive : object₁.isPassive) (method : String) (ha : List.Forall₂ V args₁ args₂) :
    SameAnswer V (w₁.invoke h method args₁).1 (w₂.invoke h method args₂).1 := by
  unfold invoke
  rw [h₁, h₂]
  cases object₁ with
  | writer sink₁ =>
    obtain ⟨sink₂, rfl⟩ : ∃ sink₂, object₂ = .writer sink₂ := by
      cases object₂ with
      | writer sink₂ => exact ⟨sink₂, rfl⟩
      | _ => cases sink₁ <;> cases hsame
    simp only [Sink.request_eq hV method ha]
    cases Sink.request method args₂ with
    | ok s => exact .value (hliteral .unit)
    | error cause => exact .error _
  | reader origin =>
    cases origin with
    | text s =>
      obtain rfl : object₂ = .reader (.text s) := by
        cases object₂ with
        | writer sink₂ => cases sink₂ <;> cases hsame
        | _ => exact hsame.symm
      simp only [Origin.request_eq method ha]
      cases Origin.request method args₂ with
      | ok => exact .value (hliteral (.str s))
      | error cause => exact .error _
    | standardInput => cases hpassive
  | custom kind answer => cases hpassive

/-- Passive objects leave the standard input alone. -/
theorem invoke_input (hobject : w.object? h.object = some object) (hpassive : object.isPassive)
    (method : String) (args : List Value) : (w.invoke h method args).2.input = w.input := by
  unfold invoke
  rw [hobject]
  cases object with
  | writer sink =>
    cases Sink.request method args with
    | ok s => cases sink <;> rfl
    | error cause => rfl
  | reader origin =>
    cases origin with
    | text s => cases Origin.request method args <;> rfl
    | standardInput => cases hpassive
  | custom kind answer => cases hpassive

end World

/-! ## What others do in the meantime -/

/-- What others do between two calls of a run: they write texts to objects and to the standard
output, and make frames and records. -/
structure Interlude where
  texts : ObjectId → String
  output : String
  stamps : Nat

/-- Nobody does anything. -/
def Interlude.idle : Interlude := ⟨fun _ => "", "", 0⟩

namespace World

/-- The world after an interlude. -/
def meanwhile (w : World) (i : Interlude) : World :=
  { w with
    objects := w.objects.mapIdx fun k object => object.added (i.texts ⟨k⟩)
    stamps := w.stamps + i.stamps
    output := w.output ++ i.output }

/-- Calls of objects that others use too: `others k` comes right before the call that is recorded
after `k` earlier ones. The calls of others are not recorded. -/
def invokeShared (others : Nat → Interlude) (w : World) (h : Handle) (method : String)
    (args : List Value) : Except Fault Value × World :=
  (w.meanwhile (others w.calls.length)).invoke h method args

theorem object?_meanwhile (w : World) (i : Interlude) (id : ObjectId) :
    (w.meanwhile i).object? id = (w.object? id).map (Object.added (i.texts id)) :=
  Array.getElem?_mapIdx

theorem meanwhile_idle (w : World) : w.meanwhile .idle = w := by
  have hobjects : w.objects.mapIdx (fun k object => object.added (Interlude.idle.texts ⟨k⟩)) =
      w.objects := by
    refine Array.ext_getElem? fun k => ?_
    rw [Array.getElem?_mapIdx]
    exact Object.map_added_empty _
  rw [meanwhile, hobjects]
  simp only [Interlude.idle, String.append_empty, Nat.add_zero]

theorem invokeShared_idle : invokeShared (fun _ => .idle) = invoke := by
  funext w h method args
  rw [invokeShared, meanwhile_idle]

/-- The world as a run finds it if it is the first one. -/
def fresh (w : World) : World :=
  { w with
    objects := ⟨w.objects.toList.map Object.cleared⟩
    stamps := 0
    calls := []
    output := "" }

theorem object?_fresh (w : World) (id : ObjectId) :
    w.fresh.object? id = (w.object? id).map Object.cleared := by
  rw [object?, object?, fresh, List.getElem?_toArray, List.getElem?_map, Array.getElem?_toList]

end World

/-! ## What is written -/

/-- The texts that calls write to an object, in order. The calls are listed with the last one
first. -/
def textsTo (id : ObjectId) (calls : List Invocation) : List String :=
  calls.reverse.filterMap (·.textTo? id)

/-- What an object gets in the course of some calls, from others and by the calls, if the first one
is recorded after `first` earlier ones. -/
def textAmid (others : Nat → Interlude) (id : ObjectId) (first : Nat) : List Invocation → String
  | [] => ""
  | call :: earlier =>
    textAmid others id first earlier ++
      ((others (first + earlier.length)).texts id ++ (call.textTo? id).getD "")

theorem join_textsTo_cons (id : ObjectId) (call : Invocation) (earlier : List Invocation) :
    String.join (textsTo id (call :: earlier)) =
      String.join (textsTo id earlier) ++ (call.textTo? id).getD "" := by
  have hlast : String.join ([call].filterMap (·.textTo? id)) = (call.textTo? id).getD "" := by
    cases htext : call.textTo? id with
    | none => simp [htext]
    | some s => simp [htext]
  rw [textsTo, List.reverse_cons, List.filterMap_append, String.join_append, hlast, textsTo]

/-- If nobody else writes, an object gets the texts of the calls one after the other. -/
theorem textAmid_idle (id : ObjectId) (first : Nat) (calls : List Invocation) :
    textAmid (fun _ => .idle) id first calls = String.join (textsTo id calls) := by
  induction calls with
  | nil => rfl
  | cons call earlier ih =>
    rw [textAmid, join_textsTo_cons, ih]
    exact congrArg (_ ++ ·) (String.empty_append)

/-- Two calls through one handle to one method, with arguments that are equal without stamps. -/
structure Invocation.Twin (lent : Handle → Prop) (i j : Invocation) : Prop where
  handle : i.handle = j.handle
  method : i.method = j.method
  args : List.Forall₂ (Value.Twin lent) i.args j.args

theorem Invocation.Twin.textTo?_eq {lent : Handle → Prop} {i j : Invocation}
    (h : Invocation.Twin lent i j) (id : ObjectId) : i.textTo? id = j.textTo? id := by
  rw [textTo?, textTo?, h.handle, h.method, Sink.request_eq Value.twin_faithful j.method h.args]

theorem textsTo_eq {lent : Handle → Prop} {calls₁ calls₂ : List Invocation}
    (h : List.Forall₂ (Invocation.Twin lent) calls₁ calls₂) (id : ObjectId) :
    textsTo id calls₁ = textsTo id calls₂ := by
  induction h with
  | nil => rfl
  | cons head rest ih =>
    unfold textsTo at ih ⊢
    rw [List.reverse_cons, List.reverse_cons, List.filterMap_append, List.filterMap_append, ih,
      List.filterMap_cons, List.filterMap_cons, head.textTo?_eq id]

/-! ## Worlds -/

namespace World

/-- **From `w`, a run on shared objects has come to `w₁`, and the same run on fresh ones to `w₂`.**
The calls `own₁` and `own₂` that they have made are the same but for stamps, and objects differ
from those of `w` only in the texts that were added. -/
structure Apart (others : Nat → Interlude) (lent : Handle → Prop) (w : World)
    (own₁ own₂ : List Invocation) (w₁ w₂ : World) : Prop where
  calls₁ : w₁.calls = own₁ ++ w.calls
  calls₂ : w₂.calls = own₂
  twins : List.Forall₂ (Invocation.Twin lent) own₁ own₂
  objects₁ : ∀ id, w₁.object? id =
    (w.object? id).map (Object.added (textAmid others id w.calls.length own₁))
  objects₂ : ∀ id, w₂.object? id =
    (w.object? id).map fun object => object.cleared.added (String.join (textsTo id own₂))
  input₁ : w₁.input = w.input
  input₂ : w₂.input = w.input

namespace Apart

variable {others : Nat → Interlude} {lent : Handle → Prop} {w w₁ w₂ : World}
  {own₁ own₂ : List Invocation}

theorem fresh (w : World) : w.Apart others lent [] [] w w.fresh where
  calls₁ := rfl
  calls₂ := rfl
  twins := .nil
  objects₁ id := (Object.map_added_empty _).symm
  objects₂ id := by
    rw [object?_fresh]
    exact congrArg (Option.map · _) (funext fun object => object.cleared.added_empty.symm)
  input₁ := rfl
  input₂ := rfl

/-- An object of the shared world, once others have written to it. -/
theorem object?_meanwhile (hw : w.Apart others lent own₁ own₂ w₁ w₂) (id : ObjectId) :
    (w₁.meanwhile (others w₁.calls.length)).object? id = (w.object? id).map (Object.added
      (textAmid others id w.calls.length own₁ ++
        (others (w.calls.length + own₁.length)).texts id)) := by
  have hlength : w₁.calls.length = w.calls.length + own₁.length := by
    rw [hw.calls₁, List.length_append, Nat.add_comm]
  rw [World.object?_meanwhile, hw.objects₁, hlength, Option.map_map]
  exact congrArg (Option.map · _) (funext fun object => object.added_added _ _)

/-- **A call of a passive object keeps the worlds apart as they are**, and is answered alike. -/
theorem invoke (hw : w.Apart others lent own₁ own₂ w₁ w₂) {h : Handle} {object : Object}
    (hobject : w.object? h.object = some object) (hpassive : object.isPassive) (method : String)
    {args₁ args₂ : List Value} (ha : List.Forall₂ (Value.Twin lent) args₁ args₂) :
    SameAnswer (Value.Twin lent) (w₁.invokeShared others h method args₁).1
        (w₂.invoke h method args₂).1 ∧
      w.Apart others lent (⟨h, method, args₁⟩ :: own₁) (⟨h, method, args₂⟩ :: own₂)
        (w₁.invokeShared others h method args₁).2 (w₂.invoke h method args₂).2 := by
  have h₁ := hw.object?_meanwhile h.object
  have h₂ := hw.objects₂ h.object
  rw [hobject, Option.map_some] at h₁ h₂
  have hpassive₁ : ∀ s, (object.added s).isPassive :=
    fun s => (object.isPassive_added s).trans hpassive
  have hpassive₂ : (object.cleared.added (String.join (textsTo h.object own₂))).isPassive := by
    rw [Object.isPassive_added, Object.isPassive_cleared]
    exact hpassive
  refine ⟨?_, ?_, ?_, .cons ⟨rfl, rfl, ha⟩ hw.twins, fun id => ?_, fun id => ?_, ?_, ?_⟩
  · refine sameAnswer_of_passive Value.twin_faithful (fun l => ?_) h₁ h₂ ?_ (hpassive₁ _) method ha
    · exact Value.twin_of_isScalar (by cases l <;> rfl)
    · simp only [Object.cleared_added, Object.cleared_cleared]
  · rw [invokeShared, invoke_calls, List.cons_append]
    exact congrArg _ hw.calls₁
  · rw [invoke_calls, hw.calls₂]
  · rw [invokeShared, object?_invoke, hw.object?_meanwhile, Option.map_map]
    refine congrArg (Option.map · _) (funext fun object => ?_)
    rw [Function.comp_apply, Object.added_added, String.append_assoc, textAmid]
  · rw [object?_invoke, hw.objects₂, Option.map_map]
    refine congrArg (Option.map · _) (funext fun object => ?_)
    rw [Function.comp_apply, Object.added_added, join_textsTo_cons]
  · rw [invokeShared, invoke_input h₁ (hpassive₁ _)]
    exact hw.input₁
  · rw [invoke_input h₂ hpassive₂, hw.input₂]

/-- To clear the objects undoes all that a run has done to them. -/
theorem fresh_eq (hw : w.Apart others lent own₁ own₂ w₁ w₂) : w₁.fresh = w.fresh := by
  have hobjects : w₁.fresh.objects = w.fresh.objects := by
    refine Array.ext_getElem? fun k => ?_
    have hcleared : w₁.fresh.object? ⟨k⟩ = w.fresh.object? ⟨k⟩ := by
      rw [object?_fresh, object?_fresh, hw.objects₁, Option.map_map]
      exact congrArg (Option.map · _) (funext fun object => object.cleared_added _)
    exact hcleared
  show World.mk w₁.fresh.objects 0 [] w₁.input "" = _
  rw [hobjects, hw.input₁]
  rfl

end Apart

/-- Whatever is registered is a writer, or a reader of a fixed text. -/
def LendsPassive (w : World) (r : Registry) : Prop :=
  ∀ x h, r.find? x = some h → ∃ object, w.object? h.object = some object ∧ object.isPassive

theorem Apart.lendsPassive {others : Nat → Interlude} {lent : Handle → Prop} {w w₁ w₂ : World}
    {own₁ own₂ : List Invocation} (hw : w.Apart others lent own₁ own₂ w₁ w₂) {r : Registry}
    (hr : w.LendsPassive r) : w₁.LendsPassive r := by
  intro x h hx
  obtain ⟨object, hobject, hpassive⟩ := hr x h hx
  have hobject₁ := hw.objects₁ h.object
  rw [hobject, Option.map_some] at hobject₁
  exact ⟨_, hobject₁, (object.isPassive_added _).trans hpassive⟩

end World

/-! ## Runs -/

/-- **A run on shared objects keeps in step with the run alone.** -/
theorem isolation_coupling (names : NameTable) {r : Registry} {w : World}
    (hr : w.LendsPassive r) (others : Nat → Interlude) :
    Coupling ⟨names, r, World.invokeShared others⟩ ⟨names, r, World.invoke⟩
      (Value.Twin fun h => ∃ x, r.find? x = some h)
      (fun env₁ env₂ _ => Env.Twin (fun h => ∃ x, r.find? x = some h) env₁ env₂)
      (fun _ _ => True) fun w₁ w₂ => ∃ own₁ own₂,
        w.Apart others (fun h => ∃ x, r.find? x = some h) own₁ own₂ w₁ w₂ where
  names := rfl
  faithful := Value.twin_faithful
  literal l := Value.twin_of_isScalar (by cases l <;> rfl)
  var h := h.lookup _
  lambda h := Value.twin_closure.mpr h
  app h := ⟨h, fun _ _ => h⟩
  letIn h := ⟨h, fun s₁ s₂ v w _ hv => h.extendMany s₁ s₂ (.cons hv .nil)⟩
  letRec h s₁ s₂ _ := h.bindGroup s₁ s₂ _ _
  ifThenElse h := ⟨h, h, h⟩
  caseOf h := ⟨h, fun p body _ s₁ s₂ bs₁ bs₂ _ _ hbindings => h.extendMany s₁ s₂ hbindings⟩
  record h _ _ := h
  ofFields _ hfields := Value.Twin.ofFields hfields _ _
  field h := h
  payload h := h
  variant h := h.variant _
  prim h _ _ := h
  body hf ha _ s₁ s₂ s₁' s₂' _ _ :=
    ((Value.twin_closure.mp hf).ofCode s₁ s₂ _).extendMany s₁' s₂' (Fieldwise.zip ha _)
  stamp {w₁ w₂} hw := by
    obtain ⟨own₁, own₂, hw⟩ := hw
    exact ⟨trivial, own₁, own₂, hw.calls₁, hw.calls₂, hw.twins, hw.objects₁, hw.objects₂,
      hw.input₁, hw.input₂⟩
  fetch {env₁ env₂ span x args} _ := by
    show Option.Rel _ (r.find? x) (r.find? x)
    cases hx : r.find? x with
    | none => exact .none
    | some h =>
      refine .some ⟨rfl, fun u hu => ?_⟩
      obtain rfl := List.mem_singleton.mp hu
      exact ⟨x, hx⟩
  host {h method args₁ args₂ w₁ w₂} hh ha hw := by
    obtain ⟨own₁, own₂, hw⟩ := hw
    obtain ⟨x, hx⟩ := hh.holds _ List.mem_cons_self
    obtain ⟨object, hobject, hpassive⟩ := hr x h hx
    obtain ⟨hanswer, hworld⟩ := hw.invoke hobject hpassive method ha
    exact ⟨hanswer, _, _, hworld⟩

theorem SameAnswer.unstamped {ε : Type} {lent : Handle → Prop} {x y : Except ε Value}
    (h : SameAnswer (Value.Twin lent) x y) :
    x.map Value.unstamped = y.map Value.unstamped := by
  cases h with
  | value result => exact congrArg Except.ok result.same
  | error e => rfl

namespace Runner

variable (names : NameTable) {r : Registry} (mode : Mode) (p : Nat) {w : World}

/-- A run on shared objects comes to the same as alone, and writes the same. -/
theorem run_apart (hr : w.LendsPassive r) (others : Nat → Interlude) (t : Term) :
    let shared := Runner.run ⟨⟨names, r, World.invokeShared others⟩, mode⟩ p t w
    let alone := Runner.run ⟨⟨names, r, World.invoke⟩, mode⟩ p t w.fresh
    shared.1.map Value.unstamped = alone.1.map Value.unstamped ∧
      ∃ own₁ own₂,
        w.Apart others (fun h => ∃ x, r.find? x = some h) own₁ own₂ shared.2 alone.2 := by
  obtain ⟨houtcome, hmachines⟩ := (isolation_coupling names hr others).start mode false p
    (t := t) Env.Twin.empty ⟨[], [], .fresh w⟩
  exact ⟨houtcome.unstamped, hmachines.world⟩

/-- Programs that run one after the other come each to what they come to alone, and objects get
what each of them writes alone, in this order. -/
theorem runAll_apart (ts : List Term) (hr : w.LendsPassive r) :
    let runner : Runner := ⟨⟨names, r, World.invoke⟩, mode⟩
    (runner.runAll p ts w).1.map (·.map Value.unstamped) =
        ts.map (fun t => (runner.run p t w.fresh).1.map Value.unstamped) ∧
      ∀ id, (runner.runAll p ts w).2.object? id = (w.object? id).map (Object.added
        (String.join (ts.map fun t =>
          String.join (textsTo id (runner.run p t w.fresh).2.calls)))) := by
  intro runner
  induction ts generalizing w with
  | nil => exact ⟨rfl, fun id => (Object.map_added_empty _).symm⟩
  | cons t ts ih =>
    obtain ⟨houtcome, own₁, own₂, hw⟩ := run_apart names mode p hr (fun _ => .idle) t
    rw [World.invokeShared_idle] at houtcome hw
    obtain ⟨houtcomes, hobjects⟩ := ih (hw.lendsPassive hr)
    -- Every run is compared with one and the same fresh world.
    rw [hw.fresh_eq] at houtcomes hobjects
    constructor
    · show (runner.run p t w).1.map Value.unstamped ::
        (runner.runAll p ts (runner.run p t w).2).1.map (·.map Value.unstamped) = _
      rw [houtcomes]
      exact congrArg (· :: _) houtcome
    · intro id
      have hfirst := hw.objects₁ id
      rw [textAmid_idle, textsTo_eq hw.twins, ← hw.calls₂] at hfirst
      refine (hobjects id).trans ?_
      rw [hfirst, Option.map_map, List.map_cons, String.join_cons]
      exact congrArg (Option.map · _) (funext fun object => object.added_added _ _)

end Runner

end CapLang
