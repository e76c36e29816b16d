import CapLang.Proofs.Akin

/-!
# Values that look alike

What evaluation can find out about a value is its kind, the scalar or the handle that it is, the
code of a function, and its fields or its payload.  A relation between values is *faithful* if it
relates only values that agree in all this and contain related values (`Value.Faithful`).  This is
kinship of values in programs with the same names (`Faithful.under`), so whatever else the relation
says, for instance about the environments of functions, evaluation cannot tell related values apart.
-/
namespace CapLang

namespace Value

/-- Fields with the same names in the same order, and related values. -/
inductive Fieldwise (V : Value → Value → Prop) :
    List (Name × Value) → List (Name × Value) → Prop
  | nil : Fieldwise V [] []
  | cons {x : Name} {v w : Value} {fs gs : List (Name × Value)} (head : V v w)
      (rest : Fieldwise V fs gs) : Fieldwise V ((x, v) :: fs) ((x, w) :: gs)

/-- The values agree in what is seen of them, and what they contain is related.  Stamps are not
seen, and neither is the environment of a function. -/
inductive Alike (V : Value → Value → Prop) : Value → Value → Prop
  | int (n : Int64) : Alike V (.int n) (.int n)
  | bool (b : Bool) : Alike V (.bool b) (.bool b)
  | str (s : String) : Alike V (.str s) (.str s)
  | unit : Alike V .unit .unit
  | closure (code : Code) (env₁ env₂ : Env) : Alike V (.closure code env₁) (.closure code env₂)
  | record (s₁ s₂ : Stamp) {fs gs : List (Name × Value)} (fields : Fieldwise V fs gs) :
      Alike V (.record s₁ fs) (.record s₂ gs)
  | variant (tag : Name) {v w : Value} (payload : V v w) :
      Alike V (.variant tag v) (.variant tag w)
  | capability (h : Handle) : Alike V (.capability h) (.capability h)

/-- **Related values look alike**, and so does what they contain. -/
def Faithful (V : Value → Value → Prop) : Prop := ∀ v w, V v w → Alike V v w

variable {V : Value → Value → Prop}

theorem fieldwise_iff {fs gs : List (Name × Value)} :
    Fieldwise V fs gs ↔ Entrywise Eq V fs gs := by
  constructor
  · intro h
    induction h with
    | nil => exact .nil
    | cons head rest ih => exact .cons rfl head ih
  · intro h
    induction h with
    | nil => exact .nil
    | cons key content rest ih =>
      obtain rfl := key
      exact .cons content ih

/-- **Values that look alike are akin**, with equal names. -/
theorem Faithful.under (hV : Faithful V) : FaithfulUnder Eq V := by
  intro v w h
  cases hV v w h with
  | int n => exact .int n
  | bool b => exact .bool b
  | str s => exact .str s
  | unit => exact .unit
  | closure code env₁ env₂ => exact .closure code.akin_refl env₁ env₂
  | record s₁ s₂ fields => exact .record s₁ s₂ (fieldwise_iff.mp fields)
  | variant tag payload => exact .variant rfl payload
  | capability handle => exact .capability rfl

namespace Fieldwise

variable {fs gs : List (Name × Value)}

theorem zip {vs ws : List Value} (h : List.Forall₂ V vs ws) (names : List Name) :
    Fieldwise V (names.zip vs) (names.zip ws) :=
  fieldwise_iff.mpr (.zip (List.forall₂_same.mpr fun _ _ => rfl) h)

/-- Two ways of making fields of the members of a list. -/
theorem mapIdx {α β : Type} {f g : Nat → α × β → Name × Value} (l : List (α × β))
    (hnames : ∀ i a, (f i a).1 = (g i a).1) (hvalues : ∀ i a, V (f i a).2 (g i a).2) :
    Fieldwise V (l.mapIdx f) (l.mapIdx g) := by
  have hsame : Entrywise Eq Eq l l := .of_forall fun _ _ => ⟨rfl, rfl⟩
  refine fieldwise_iff.mpr (hsame.mapIdx (fun i a b h h' => ?_) fun i a b h h' => ?_)
  · rw [Prod.ext h h']
    exact hnames i b
  · rw [Prod.ext h h']
    exact hvalues i b

/-- In environments that are extended with related bindings, a name stands for related values if
it did before, or if it is among those bound. -/
theorem lookup_extendMany (h : Fieldwise V fs gs) {env₁ env₂ : Env} (s₁ s₂ : Stamp) {x : Name}
    (houter : x ∉ fs.map (·.1) → Option.Rel V (env₁.lookup x) (env₂.lookup x)) :
    Option.Rel V ((env₁.extendMany s₁ fs).lookup x) ((env₂.extendMany s₂ gs).lookup x) :=
  (fieldwise_iff.mp h).lookup_extendMany biUnique_eq s₁ s₂ rfl houter

end Fieldwise
end Value

theorem Sink.request_eq {V : Value → Value → Prop} (hV : Value.Faithful V) (method : String)
    {vs ws : List Value} (h : List.Forall₂ V vs ws) :
    Sink.request method vs = Sink.request method ws :=
  Sink.request_akin method h hV.under

end CapLang
