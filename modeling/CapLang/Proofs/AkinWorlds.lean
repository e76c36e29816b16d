import CapLang.Proofs.Hosts
import CapLang.Proofs.Tandem

/-!
# Worlds that correspond

Two worlds are akin if they have the same objects in the same states, have received corresponding
calls, and agree in their streams (`World.Akin`).  Of objects of the host's own the most that can be
said is that they answer corresponding calls alike, after corresponding calls in the past.  A call
through corresponding handles with related arguments then comes to the same in both worlds and
leaves them akin (`World.Akin.invoke`).
-/
namespace CapLang

open Value (FaithfulUnder)

section Relations

variable (N : Name → Name → Prop) (V : Value → Value → Prop)

/-- Handles to one object, registered under corresponding names. -/
structure Handle.Akin (h k : Handle) : Prop where
  name : N h.name k.name
  object : h.object = k.object
  kind : h.kind = k.kind

/-- Calls of one method through corresponding handles, with related arguments. -/
structure Invocation.Akin (i j : Invocation) : Prop where
  handle : i.handle.Akin N j.handle
  method : i.method = j.method
  args : List.Forall₂ V i.args j.args

/-- Objects that cannot be told apart by corresponding calls. -/
inductive Object.Akin : Object → Object → Prop
  | writer (sink : Sink) : Object.Akin (.writer sink) (.writer sink)
  | reader (origin : Origin) : Object.Akin (.reader origin) (.reader origin)
  | custom (kind : String)
      {answer₁ answer₂ : List Invocation → String → List Value → Except Fault Value}
      (alike : ∀ calls₁ calls₂, List.Forall₂ (Invocation.Akin N V) calls₁ calls₂ →
        ∀ method args₁ args₂, List.Forall₂ V args₁ args₂ →
          SameAnswer V (answer₁ calls₁ method args₁) (answer₂ calls₂ method args₂)) :
      Object.Akin (.custom kind answer₁) (.custom kind answer₂)

/-- **Worlds with the same objects in the same states**, after corresponding calls. -/
structure World.Akin (w₁ w₂ : World) : Prop where
  objects : ∀ id, Option.Rel (Object.Akin N V) (w₁.object? id) (w₂.object? id)
  calls : List.Forall₂ (Invocation.Akin N V) w₁.calls w₂.calls
  input : w₁.input = w₂.input
  output : w₁.output = w₂.output

end Relations

variable {N : Name → Name → Prop} {V : Value → Value → Prop}

/-- Objects stay akin when one text is added to both. -/
theorem Object.Akin.added {a b : Object} (h : Object.Akin N V a b) (s : String) :
    Object.Akin N V (a.added s) (b.added s) := by
  cases h with
  | writer sink => cases sink <;> exact .writer _
  | reader origin => exact .reader origin
  | custom kind alike => exact .custom kind alike

namespace World.Akin

variable {w₁ w₂ : World}

/-- Stamps do not matter. -/
theorem stamp (h : w₁.Akin N V w₂) : w₁.stamp.2.Akin N V w₂.stamp.2 :=
  ⟨h.objects, h.calls, h.input, h.output⟩

theorem record (h : w₁.Akin N V w₂) {i j : Invocation} (hij : i.Akin N V j) :
    Akin N V { w₁ with calls := i :: w₁.calls } { w₂ with calls := j :: w₂.calls } :=
  ⟨h.objects, .cons hij h.calls, h.input, h.output⟩

theorem write (h : w₁.Akin N V w₂) {id : ObjectId} {sink : Sink}
    (h₁ : w₁.object? id = some (.writer sink)) (h₂ : w₂.object? id = some (.writer sink))
    (s : String) : (w₁.write id s sink).Akin N V (w₂.write id s sink) where
  objects id' := by
    rw [object?_write w₁ id id' s sink h₁, object?_write w₂ id id' s sink h₂]
    have hobject := h.objects id'
    generalize w₁.object? id' = found₁ at hobject ⊢
    generalize w₂.object? id' = found₂ at hobject ⊢
    cases hobject with
    | none => exact .none
    | some hab => exact .some (hab.added _)
  calls := by
    rw [write_calls, write_calls]
    exact h.calls
  input := by cases sink <;> exact h.input
  output := by
    cases sink with
    | standardOutput => exact congrArg (· ++ s) h.output
    | _ => exact h.output

variable (hliteral : ∀ l, V (.ofLiteral l) (.ofLiteral l))
include hliteral

theorem read (h : w₁.Akin N V w₂) (origin : Origin) :
    SameAnswer V (w₁.read origin).1 (w₂.read origin).1 ∧
      (w₁.read origin).2.Akin N V (w₂.read origin).2 := by
  cases origin with
  | text s => exact ⟨.value (hliteral (.str s)), h⟩
  | standardInput =>
    have hrest : Akin N V { w₁ with input := ByteArray.empty }
        { w₂ with input := ByteArray.empty } := ⟨h.objects, h.calls, rfl, h.output⟩
    simp only [World.read, h.input]
    cases String.fromUTF8? w₂.input with
    | some s => exact ⟨.value (hliteral (.str s)), hrest⟩
    | none => exact ⟨.error _, hrest⟩

/-- **Corresponding calls come to the same** in worlds that correspond. -/
theorem invoke (hV : FaithfulUnder N V) (h : w₁.Akin N V w₂) {a b : Handle} (hab : a.Akin N b)
    (method : String) {args₁ args₂ : List Value} (ha : List.Forall₂ V args₁ args₂) :
    SameAnswer V (w₁.invoke a method args₁).1 (w₂.invoke b method args₂).1 ∧
      (w₁.invoke a method args₁).2.Akin N V (w₂.invoke b method args₂).2 := by
  have hrecord := h.record ⟨hab, rfl, ha⟩ (i := ⟨a, method, args₁⟩) (j := ⟨b, method, args₂⟩)
  have hobject := h.objects a.object
  unfold World.invoke
  rw [hab.object] at hobject ⊢
  generalize h₁ : w₁.object? b.object = found₁ at hobject ⊢
  generalize h₂ : w₂.object? b.object = found₂ at hobject ⊢
  cases hobject with
  | none =>
    rw [hab.kind]
    exact ⟨.error _, hrecord⟩
  | some hakin =>
    cases hakin with
    | writer sink =>
      simp only [Sink.request_akin method ha hV]
      cases Sink.request method args₂ with
      | ok s => exact ⟨.value (hliteral .unit), hrecord.write h₁ h₂ s⟩
      | error cause => exact ⟨.error _, hrecord⟩
    | reader origin =>
      simp only [Origin.request_eq method ha]
      cases Origin.request method args₂ with
      | ok => exact hrecord.read hliteral origin
      | error cause => exact ⟨.error _, hrecord⟩
    | custom kind alike => exact ⟨alike _ _ h.calls method _ _ ha, hrecord⟩

end World.Akin

/-- A call takes no stamps. -/
theorem World.invoke_stamps (w : World) (h : Handle) (method : String) (args : List Value) :
    (w.invoke h method args).2.stamps = w.stamps := by
  have hwrite : ∀ (w : World) id s sink, (w.write id s sink).stamps = w.stamps := by
    intro w id s sink
    cases sink <;> rfl
  have hread : ∀ (w : World) origin, (w.read origin).2.stamps = w.stamps := by
    intro w origin
    cases origin with
    | text s => rfl
    | standardInput =>
      simp only [World.read]
      split <;> rfl
  unfold World.invoke
  split
  · split
    · rw [hwrite]
    · rfl
  · split
    · rw [hread]
    · rfl
  · rfl
  · rfl

/-- A world corresponds to itself if its objects are not looking for a difference. -/
theorem World.akin_refl {w : World} (hV : ∀ v, V v v)
    (hobjects : ∀ object ∈ w.objects, Object.Akin Eq V object object) : w.Akin Eq V w where
  objects id := by
    cases hfound : w.object? id with
    | none => exact .none
    | some object => exact .some (hobjects object (Array.mem_of_getElem? hfound))
  calls := List.forall₂_same.mpr fun i _ =>
    ⟨⟨rfl, rfl, rfl⟩, rfl, List.forall₂_same.mpr fun v _ => hV v⟩
  input := rfl
  output := rfl

/-! ### The object that gives back what it gets -/

theorem Echo.object_akin :
    Object.Akin N V (.custom "Echo" Echo.answer) (.custom "Echo" Echo.answer) := by
  refine .custom "Echo" fun _ _ _ method args₁ args₂ hargs => ?_
  cases hargs with
  | nil => exact .error _
  | cons head rest => exact .value head

/-- It is the same object whatever names there are. -/
theorem Echo.akin : Echo.world.Akin N V Echo.world where
  objects id := by
    obtain ⟨i⟩ := id
    cases i with
    | zero => exact .some Echo.object_akin
    | succ i => exact .none
  calls := .nil
  input := rfl
  output := rfl

end CapLang
