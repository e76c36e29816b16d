import CapLang.Proofs.Operators

/-!
# What a call of a host object can do

A call is recorded before all those recorded earlier (`invoke_calls`), it changes objects only by
the text that a writer gets (`object?_invoke`), and what it comes to is either up to an object of
the host's own or one of a few things that writers and readers say (`invoke_answers`).
-/
namespace CapLang

namespace World

/-- **What a call of a method can come to.** -/
inductive Answers (w : World) (h : Handle) (method : String) (args : List Value) :
    Except Fault Value → Prop
  /-- An object of the host's own answers. -/
  | custom {kind : String} {answer : List Invocation → String → List Value → Except Fault Value}
      (lent : w.object? h.object = some (.custom kind answer)) :
      Answers w h method args (answer w.calls method args)
  | written : Answers w h method args (.ok .unit)
  | text (s : String) : Answers w h method args (.ok (.str s))
  /-- There is no such object or no such method, the arguments are wrong, or the input is. -/
  | refused {cause : Cause} (plain : cause.faultClass.ofPrimitive) :
      Answers w h method args (.error (.ofCause cause))

variable (w : World) (h : Handle) (method : String) (args : List Value)

@[simp] theorem write_calls (id : ObjectId) (s : String) (sink : Sink) :
    (w.write id s sink).calls = w.calls := by
  cases sink <;> rfl

@[simp] theorem read_calls (origin : Origin) : (w.read origin).2.calls = w.calls := by
  cases origin with
  | text s => rfl
  | standardInput =>
    simp only [read]
    split <;> rfl

/-- **A call is recorded.** -/
theorem invoke_calls : (w.invoke h method args).2.calls = ⟨h, method, args⟩ :: w.calls := by
  unfold invoke
  split
  · split
    · rw [write_calls]
    · rfl
  · split
    · rw [read_calls]
    · rfl
  · rfl
  · rfl

theorem read_objects (origin : Origin) : (w.read origin).2.objects = w.objects := by
  cases origin with
  | text s => rfl
  | standardInput =>
    simp only [read]
    split <;> rfl

end World

/-! ## Objects after a call -/

/-- A writer that keeps its text, with more of it. Other objects stay as they are. -/
def Object.added (s : String) : Object → Object
  | writer (.buffer written) => writer (.buffer (written ++ s))
  | object => object

/-- The text that a call writes if it asks the object with this number, and if that is a writer. -/
def Invocation.textTo? (id : ObjectId) (call : Invocation) : Option String :=
  match Sink.request call.method call.args with
  | .ok s => if call.handle.object = id then some s else none
  | .error _ => none

@[simp] theorem Object.added_empty (object : Object) : object.added "" = object := by
  unfold added
  split
  · rw [String.append_empty]
  · rfl

@[simp] theorem Object.map_added_empty (found : Option Object) :
    found.map (Object.added "") = found := by
  cases found with
  | none => rfl
  | some object => exact congrArg some object.added_empty

theorem Invocation.textTo?_of_ne {id : ObjectId} {call : Invocation}
    (h : call.handle.object ≠ id) : call.textTo? id = none := by
  unfold textTo?
  split
  · exact if_neg h
  · rfl

theorem Object.eq_custom_of_added {object : Object} {s kind : String}
    {answer : List Invocation → String → List Value → Except Fault Value}
    (h : object.added s = .custom kind answer) : object = .custom kind answer := by
  unfold added at h
  split at h
  · cases h
  · exact h

namespace World

variable (w : World) (h : Handle) (method : String) (args : List Value)

/-- Text that is written goes to the writer alone, and is kept there if text is kept at all. -/
theorem object?_write (id id' : ObjectId) (s : String) (sink : Sink)
    (hsink : w.object? id = some (.writer sink)) : (w.write id s sink).object? id' =
      (w.object? id').map (Object.added ((if id = id' then some s else none).getD "")) := by
  by_cases hid : id = id'
  · subst hid
    rw [if_pos rfl, Option.getD_some, hsink]
    cases sink with
    | buffer written =>
      rw [object?] at hsink
      rw [write, object?, Array.getElem?_modify, if_pos rfl, hsink]
      rfl
    | silent => exact hsink
    | standardOutput => exact hsink
  · rw [if_neg hid, Option.getD_none, Object.map_added_empty]
    cases sink with
    | buffer written =>
      have hindex : ¬ id.index = id'.index := fun heq => hid (congrArg ObjectId.mk heq)
      rw [write, object?, Array.getElem?_modify, if_neg hindex, object?]
    | silent => rfl
    | standardOutput => rfl

/-- Where no text is kept, a text makes no difference. -/
theorem map_added_of_object {call : Invocation} {object : Object}
    (hfound : w.object? call.handle.object = some object) (hsame : ∀ s, object.added s = object)
    (id : ObjectId) :
    (w.object? id).map (Object.added ((call.textTo? id).getD "")) = w.object? id := by
  by_cases hid : call.handle.object = id
  · rw [← hid, hfound, Option.map_some, hsame]
  · rw [Invocation.textTo?_of_ne hid, Option.getD_none, Object.map_added_empty]

/-- **A call changes an object only by the text that it writes there.** -/
theorem object?_invoke (id : ObjectId) : (w.invoke h method args).2.object? id =
    (w.object? id).map (Object.added ((Invocation.textTo? id ⟨h, method, args⟩).getD "")) := by
  unfold invoke
  cases hfound : w.object? h.object with
  | none =>
    by_cases hid : h.object = id
    · rw [← hid]
      simp only [hfound, Option.map_none]
      exact hfound
    · rw [Invocation.textTo?_of_ne hid, Option.getD_none, Object.map_added_empty]
      rfl
  | some object =>
    cases object with
    | writer sink =>
      cases hreq : Sink.request method args with
      | ok s =>
        simp only [Invocation.textTo?, hreq]
        exact object?_write { w with calls := ⟨h, method, args⟩ :: w.calls } h.object id s sink
          hfound
      | error cause =>
        simp only [Invocation.textTo?, hreq, Option.getD_none, Object.map_added_empty]
        rfl
    | reader origin =>
      rw [w.map_added_of_object hfound fun _ => rfl]
      cases Origin.request method args with
      | ok =>
        show (World.read _ origin).2.objects[id.index]? = _
        rw [read_objects]
        rfl
      | error cause => rfl
    | custom kind answer =>
      rw [w.map_added_of_object hfound fun _ => rfl]
      rfl

variable {kind : String} {answer : List Invocation → String → List Value → Except Fault Value}

/-- **Objects of the host's own stay as they are**, and no call makes one. -/
theorem custom_object?_invoke {id : ObjectId}
    (hobject : (w.invoke h method args).2.object? id = some (.custom kind answer)) :
    w.object? id = some (.custom kind answer) := by
  rw [object?_invoke] at hobject
  obtain ⟨object, hfound, hadded⟩ := Option.map_eq_some_iff.mp hobject
  rw [hfound, Object.eq_custom_of_added hadded]

/-- Where objects have changed only by added texts, no object of the host's own is new. -/
theorem custom_mem_of_added {w w' : World} {text : ObjectId → String}
    (hobjects : ∀ id, w'.object? id = (w.object? id).map (Object.added (text id)))
    (hmem : .custom kind answer ∈ w'.objects) : .custom kind answer ∈ w.objects := by
  obtain ⟨i, hi⟩ := Array.mem_iff_getElem?.mp hmem
  obtain ⟨object, hfound, hadded⟩ := Option.map_eq_some_iff.mp ((hobjects ⟨i⟩).symm.trans hi)
  rw [Object.eq_custom_of_added hadded] at hfound
  exact Array.mem_of_getElem? hfound

theorem custom_mem_invoke (hmem : .custom kind answer ∈ (w.invoke h method args).2.objects) :
    .custom kind answer ∈ w.objects :=
  custom_mem_of_added (w.object?_invoke h method args) hmem

variable {w h method args}

theorem Answers.of_sink_request {cause : Cause} (hreq : Sink.request method args = .error cause) :
    w.Answers h method args (.error (.ofCause cause)) := by
  unfold Sink.request at hreq
  split at hreq
  · split at hreq
    · cases hreq
    · cases hreq
      exact .refused rfl
    · cases hreq
      exact .refused rfl
  · cases hreq
    exact .refused rfl

theorem Answers.of_origin_request {cause : Cause}
    (hreq : Origin.request method args = .error cause) :
    w.Answers h method args (.error (.ofCause cause)) := by
  unfold Origin.request at hreq
  split at hreq
  · split at hreq
    · cases hreq
    · cases hreq
      exact .refused rfl
  · cases hreq
    exact .refused rfl

variable (w h method args)

/-- **Every answer is one of those listed.** -/
theorem invoke_answers : w.Answers h method args (w.invoke h method args).1 := by
  unfold invoke
  split
  · split
    · exact .written
    · rename_i cause hreq
      exact .of_sink_request hreq
  · rename_i origin hobj
    split
    · cases origin with
      | text s => exact .text s
      | standardInput =>
        simp only [read]
        split
        · exact .text _
        · exact .refused rfl
    · rename_i cause hreq
      exact .of_origin_request hreq
  · rename_i kind answer hobj
    exact .custom hobj
  · exact .refused rfl

/-! ## Classes of faults -/

/-- No object of the host's own ever answers with a fault of the class. -/
def NeverRaises (w : World) (c : FaultClass) : Prop :=
  ∀ kind answer, .custom kind answer ∈ w.objects →
    ∀ calls method args f, answer calls method args = .error f → f.cause.faultClass ≠ c

variable {c : FaultClass}

theorem NeverRaises.invoke (hw : w.NeverRaises c) :
    (w.invoke h method args).2.NeverRaises c :=
  fun kind answer hmem => hw kind answer (custom_mem_invoke w h method args hmem)

theorem NeverRaises.invoke_fault (hw : w.NeverRaises c) (hc : c.ofPrimitive = false) {f : Fault}
    (hf : (w.invoke h method args).1 = .error f) : f.cause.faultClass ≠ c := by
  have hanswer := w.invoke_answers h method args
  rw [hf] at hanswer
  generalize hr : (Except.error f : Except Fault Value) = r at hanswer
  cases hanswer with
  | @custom kind answer lent =>
    exact hw kind answer (Array.mem_of_getElem? lent) _ _ _ f hr.symm
  | written => cases hr
  | text s => cases hr
  | @refused cause plain =>
    cases hr
    exact FaultClass.ne_of_ofPrimitive plain hc

/-! ## Values that come back -/

/-- **Objects of the host's own make good values of good ones.**  They give good values only, as
long as they are given good values only, with this call and with those since the world was this
one. -/
def Preserves (good : Value → Prop) (w : World) : Prop :=
  ∀ kind answer, .custom kind answer ∈ w.objects →
    ∀ later method args v, (∀ call ∈ later, ∀ a ∈ call.args, a.All good) →
      (∀ a ∈ args, a.All good) → answer (later ++ w.calls) method args = .ok v → v.All good

/-- `w` may come after `start`, if objects get good values only. -/
structure LeadsTo (good : Value → Prop) (start w : World) : Prop where
  lent : ∀ kind answer, .custom kind answer ∈ w.objects → .custom kind answer ∈ start.objects
  received : ∃ later, w.calls = later ++ start.calls ∧ ∀ call ∈ later, ∀ a ∈ call.args, a.All good

namespace LeadsTo

variable {good : Value → Prop} {start w : World} {args : List Value}

theorem refl (w : World) : w.LeadsTo good w where
  lent _ _ hmem := hmem
  received := ⟨[], rfl, nofun⟩

theorem stamp (hw : start.LeadsTo good w) : start.LeadsTo good w.stamp.2 where
  lent := hw.lent
  received := hw.received

/-- What objects make of good values does not get worse. -/
theorem preserves (hw : start.LeadsTo good w) (hstart : start.Preserves good) :
    w.Preserves good := by
  obtain ⟨later, hcalls, hlater⟩ := hw.received
  intro kind answer hmem more method args v hmore hargs hv
  rw [hcalls, ← List.append_assoc] at hv
  refine hstart kind answer (hw.lent kind answer hmem) (more ++ later) method args v ?_ hargs hv
  exact List.forall_mem_append.mpr ⟨hmore, hlater⟩

variable (h : Handle) (method : String)

theorem invoke (hw : start.LeadsTo good w) (ha : ∀ a ∈ args, a.All good) :
    start.LeadsTo good (w.invoke h method args).2 where
  lent kind answer hmem := hw.lent kind answer (custom_mem_invoke w h method args hmem)
  received := by
    obtain ⟨later, hcalls, hargs⟩ := hw.received
    refine ⟨⟨h, method, args⟩ :: later, ?_, ?_⟩
    · rw [invoke_calls, hcalls, List.cons_append]
    · exact List.forall_mem_cons.mpr ⟨ha, hargs⟩

/-- **An answer is good**, if flat values are, and what objects got was. -/
theorem invoke_ok (hw : start.LeadsTo good w) (hstart : start.Preserves good)
    (hflat : ∀ v : Value, v.isFlat → v.All good) (ha : ∀ a ∈ args, a.All good) {v : Value}
    (hv : (w.invoke h method args).1 = .ok v) : v.All good := by
  have hanswer := w.invoke_answers h method args
  rw [hv] at hanswer
  generalize hr : (Except.ok v : Except Fault Value) = r at hanswer
  cases hanswer with
  | @custom kind answer lent =>
    have hmem := Array.mem_of_getElem? lent
    exact hw.preserves hstart kind answer hmem [] method args v nofun ha hr.symm
  | written =>
    cases hr
    exact hflat _ rfl
  | text s =>
    cases hr
    exact hflat _ rfl
  | @refused cause plain => cases hr

end LeadsTo

/-! ## Functions that come back -/

/-- **No object of the host's own makes functions.**  Every function in an answer is part of an
argument that the object got with this call, or that some object got with one since the world was
this one. -/
def ReturnsParts (w : World) : Prop :=
  ∀ kind answer, .custom kind answer ∈ w.objects →
    ∀ later method args v, answer (later ++ w.calls) method args = .ok v →
      ∀ code env, .closure code env ∈ v.parts →
        (∃ a ∈ args, .closure code env ∈ a.parts) ∨
          ∃ call ∈ later, ∃ a ∈ call.args, .closure code env ∈ a.parts

variable {P : Code → Env → Prop} {start w : World}

/-- **Of all functions in an answer `P` holds**, if it does of those that objects got. -/
theorem ReturnsParts.preserves (hw : w.ReturnsParts) : w.Preserves (Value.Functions P) := by
  intro kind answer hmem later method args v hlater hargs hv
  refine Value.all_functions.mpr fun code env hpart => ?_
  rcases hw kind answer hmem later method args v hv code env hpart with
    ⟨a, ha, hfrom⟩ | ⟨call, hcall, a, ha, hfrom⟩
  · exact Value.all_functions.mp (hargs a ha) code env hfrom
  · exact Value.all_functions.mp (hlater call hcall a ha) code env hfrom

/-- `w` may come after `start`, if `P` holds of all functions that objects get. -/
structure Follows (P : Code → Env → Prop) (start w : World) : Prop where
  lent : ∀ kind answer, .custom kind answer ∈ w.objects → .custom kind answer ∈ start.objects
  received : ∃ later, w.calls = later ++ start.calls ∧
    ∀ call ∈ later, ∀ a ∈ call.args, a.All (Value.Functions P)

theorem follows_iff : start.Follows P w ↔ start.LeadsTo (Value.Functions P) w :=
  ⟨fun h => ⟨h.lent, h.received⟩, fun h => ⟨h.lent, h.received⟩⟩

theorem Follows.refl (w : World) : w.Follows P w := follows_iff.mpr (.refl w)

theorem Follows.stamp (hw : start.Follows P w) : start.Follows P w.stamp.2 :=
  follows_iff.mpr (follows_iff.mp hw).stamp

end World

namespace Operator

variable {cx : Context} (op : Operator) (args : List Value) (w : World) {c : FaultClass}
  (hi : cx.invoke = World.invoke)
include hi

/-- The record of calls only grows. -/
theorem apply_calls : w.calls <:+ (op.apply cx args w).2.calls := by
  have happlies := op.apply_applies cx args w
  generalize op.apply cx args w = r at happlies ⊢
  cases happlies with
  | value flat => exact List.suffix_refl _
  | fault plain => exact List.suffix_refl _
  | @host method handle rest answer answers =>
    rw [← answers, hi, World.invoke_calls]
    exact List.suffix_cons _ _

variable {w}

theorem apply_neverRaises (hw : w.NeverRaises c) : (op.apply cx args w).2.NeverRaises c := by
  have happlies := op.apply_applies cx args w
  generalize op.apply cx args w = r at happlies ⊢
  cases happlies with
  | value flat => exact hw
  | fault plain => exact hw
  | @host method handle rest answer answers =>
    rw [← answers, hi]
    exact hw.invoke w handle _ rest

variable {op args} {w' : World}

/-- **Operators make good values of good ones**, if flat values are good, and tell objects of no
others. -/
theorem apply_leadsTo {good : Value → Prop} {start : World} (hw : start.LeadsTo good w)
    (hstart : start.Preserves good) (hflat : ∀ v : Value, v.isFlat → v.All good)
    (ha : ∀ a ∈ args, a.All good) {r : Except Fault Value} (h : op.apply cx args w = (r, w')) :
    start.LeadsTo good w' ∧ ∀ v, r = .ok v → v.All good := by
  have happlies := op.apply_applies cx args w
  rw [h] at happlies
  cases happlies with
  | value flat =>
    refine ⟨hw, fun v hv => ?_⟩
    cases hv
    exact hflat _ flat
  | fault plain => exact ⟨hw, nofun⟩
  | @host method handle rest answer answers =>
    have hrest : ∀ a ∈ rest, a.All good := fun a hmem => ha a (List.mem_cons_of_mem _ hmem)
    rw [hi] at answers
    constructor
    · have hworld := hw.invoke handle (cx.names.resolve method) hrest
      rwa [answers] at hworld
    · rintro v rfl
      exact hw.invoke_ok handle (cx.names.resolve method) hstart hflat hrest
        (congrArg Prod.fst answers)

/-- **Operators make no functions**, and tell objects of none but those they are given. -/
theorem apply_follows {P : Code → Env → Prop} {start : World} (hw : start.Follows P w)
    (hstart : start.ReturnsParts) (ha : ∀ a ∈ args, a.All (Value.Functions P))
    {r : Except Fault Value} (h : op.apply cx args w = (r, w')) :
    start.Follows P w' ∧ ∀ v, r = .ok v → v.All (Value.Functions P) := by
  rw [World.follows_iff] at hw ⊢
  exact apply_leadsTo hi hw hstart.preserves (fun _ => Value.functions_of_isFlat) ha h

end Operator

/-! ### An object that gives back what it gets -/

namespace Echo

/-- The first argument, if there is one. -/
def answer (_ : List Invocation) (_ : String) : List Value → Except Fault Value
  | v :: _ => .ok v
  | [] => .error (.ofCause (.other "nothing to give back"))

/-- A world with this object alone. -/
def world : World := ((World.ofInput ByteArray.empty).add (.custom "Echo" answer)).2

theorem answer_of_mem {kind : String}
    {lent : List Invocation → String → List Value → Except Fault Value}
    (h : .custom kind lent ∈ world.objects) : lent = answer := by
  have hone : world.objects = #[.custom "Echo" answer] := rfl
  rw [hone, List.mem_toArray, List.mem_singleton] at h
  cases h
  rfl

theorem neverRaises : world.NeverRaises .unboundVariable := by
  intro kind lent hmem calls method args f hf
  obtain rfl := answer_of_mem hmem
  cases args with
  | nil =>
    cases hf
    exact FaultClass.noConfusion
  | cons v rest => cases hf

/-- What it gives back, it got. -/
theorem answer_parts {calls : List Invocation} {method : String} {args : List Value} {v : Value}
    (h : answer calls method args = .ok v) : ∀ u ∈ v.parts, ∃ a ∈ args, u ∈ a.parts := by
  intro u hu
  cases args with
  | nil => cases h
  | cons a rest =>
    cases h
    exact ⟨v, List.mem_cons_self, hu⟩

theorem preserves (good : Value → Prop) : world.Preserves good := by
  intro kind lent hmem later method args v _ hargs hv u hu
  obtain rfl := answer_of_mem hmem
  obtain ⟨a, ha, hpart⟩ := answer_parts hv u hu
  exact hargs a ha u hpart

theorem returnsParts : world.ReturnsParts := by
  intro kind lent hmem later method args v hv code env hpart
  obtain rfl := answer_of_mem hmem
  exact .inl (answer_parts hv _ hpart)

end Echo

end CapLang
