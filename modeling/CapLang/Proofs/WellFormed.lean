import CapLang.Proofs.Aftermath
import CapLang.Proofs.References
import CapLang.Proofs.Reordering
import CapLang.Proofs.Sessions
import CapLang.Proofs.StaticShape

/-!
# Values stay well formed

A record has at least one field and no two fields of one name, and a function of a group has a
position in the group.  Nothing checks this while a program runs; what finds a field, compares
records or calls a function relies on it.  It holds of every value that evaluation comes by, because
the three places that make records and functions see to it: a record literal has distinct names, the
record without fields is a value of another kind, and a group is bound with one function for each of
its positions.  All other steps pass on parts of values that they got.

The condition on record literals concerns the code of functions too, since their bodies are
evaluated when they are called.  So it belongs to the invariant (`Value.Regular`), and host objects
have to keep it as they keep the rest.
-/
namespace CapLang

/-! ## Record literals -/

/-- **The record literals of the term have distinct field names**, those in the bodies of functions
included. -/
def Term.Tidy (t : Term) : Prop :=
  ∀ place scope span fields, t.at? place = some (scope, .record span fields) →
    (fields.map (·.1)).Nodup

/-- The record literals of the code have distinct field names. -/
def Code.Tidy : Code → Prop
  | .lambda _ _ body => body.Tidy
  | .member _ functions _ => ∀ f ∈ functions, f.2.Tidy

namespace Term

variable {t u : Term} {i : Nat} {bound : List (List Name)} {span : Option Span}

theorem Tidy.part (h : t.Tidy) (hi : t.part? i = some (bound, u)) : u.Tidy := by
  intro place scope span fields hat
  refine h (i :: place) (scope ++ bound) span fields ?_
  rw [at?, hi]
  simp [hat]

/-- A term is tidy if it is no untidy record literal and its parts are tidy. -/
theorem tidy_iff : t.Tidy ↔
    (∀ span fields, t = record span fields → (fields.map (·.1)).Nodup) ∧
      ∀ p ∈ t.parts, p.2.Tidy := by
  constructor
  · intro h
    refine ⟨fun span fields heq => ?_, fun p hp => ?_⟩
    · rw [heq] at h
      exact h [] [] span fields rfl
    · obtain ⟨i, hi⟩ := mem_parts_iff.mp hp
      exact h.part hi
  · rintro ⟨hnames, hparts⟩ place scope span fields hat
    cases place with
    | nil =>
      cases hat
      exact hnames span fields rfl
    | cons i place =>
      rw [at?] at hat
      obtain ⟨⟨outer, w⟩, hi, hrest⟩ := Option.bind_eq_some_iff.mp hat
      obtain ⟨⟨inner, v⟩, hv, hpure⟩ := Option.bind_eq_some_iff.mp hrest
      cases hpure
      exact hparts _ (mem_parts_iff.mpr ⟨i, hi⟩) place inner span fields hv

@[simp] theorem tidy_literal (l : Literal) : (literal span l).Tidy := by
  rw [tidy_iff]
  simp [parts]

@[simp] theorem tidy_var (x : Name) : (var span x).Tidy := by
  rw [tidy_iff]
  simp [parts]

@[simp] theorem tidy_lambda {id : CodeId} {h : Header} {body : Term} :
    (lambda span id h body).Tidy ↔ body.Tidy := by
  rw [tidy_iff]
  simp [parts]

@[simp] theorem tidy_app {func : Term} {args : List Term} :
    (app span func args).Tidy ↔ func.Tidy ∧ ∀ a ∈ args, a.Tidy := by
  rw [tidy_iff]
  simp [parts]

@[simp] theorem tidy_letIn {x : Name} {value body : Term} :
    (letIn span x value body).Tidy ↔ value.Tidy ∧ body.Tidy := by
  rw [tidy_iff]
  simp [parts]

@[simp] theorem tidy_letRec {id : CodeId} {functions : List (GroupHeader × Term)} {body : Term} :
    (letRec span id functions body).Tidy ↔ (∀ f ∈ functions, f.2.Tidy) ∧ body.Tidy := by
  rw [tidy_iff, parts, List.forall_mem_append, List.forall_mem_map]
  simp

@[simp] theorem tidy_ifThenElse {c a b : Term} :
    (ifThenElse span c a b).Tidy ↔ c.Tidy ∧ a.Tidy ∧ b.Tidy := by
  rw [tidy_iff]
  simp [parts]

@[simp] theorem tidy_caseOf {e : Term} {alternatives : List (Pattern × Term)} :
    (caseOf span e alternatives).Tidy ↔ e.Tidy ∧ ∀ a ∈ alternatives, a.2.Tidy := by
  rw [tidy_iff, parts, List.forall_mem_cons, List.forall_mem_map]
  simp

@[simp] theorem tidy_record {fields : List (Name × Term)} :
    (record span fields).Tidy ↔ (fields.map (·.1)).Nodup ∧ ∀ f ∈ fields, f.2.Tidy := by
  rw [tidy_iff, parts, List.forall_mem_map]
  simp

@[simp] theorem tidy_field {e : Term} {x : Name} : (field span e x).Tidy ↔ e.Tidy := by
  rw [tidy_iff]
  simp [parts]

@[simp] theorem tidy_variant {tag : Name} {e : Term} :
    (variant span tag e).Tidy ↔ e.Tidy := by
  rw [tidy_iff]
  simp [parts]

@[simp] theorem tidy_prim {op : Operator} {args : List Term} :
    (prim span op args).Tidy ↔ ∀ a ∈ args, a.Tidy := by
  rw [tidy_iff]
  simp [parts]

end Term

/-- The body that a call evaluates is tidy if the code is. -/
theorem Code.Tidy.body {code : Code} (h : code.Tidy) : code.body.Tidy := by
  cases code with
  | lambda id header body => exact h
  | member id functions i =>
    rw [Code.body]
    cases hf : functions[i]? with
    | none => exact Term.tidy_literal .unit
    | some f => exact h f (List.mem_of_getElem? hf)

/-! ## Well-formed values -/

/-- A function of a group has a position in the group. -/
def Code.InGroup : Code → Prop
  | .lambda .. => True
  | .member _ functions i => i < functions.length

/-- Where a function stands in its group, there is a function with its name, parameters and body. -/
theorem Code.InGroup.member {id : CodeId} {functions : List (GroupHeader × Term)} {i : Nat}
    (h : (Code.member id functions i).InGroup) : ∃ f, functions[i]? = some f ∧
      (Code.member id functions i).header = f.1.header ∧
      (Code.member id functions i).body = f.2 ∧
      (Code.member id functions i).name? = some f.1.binder := by
  have hf : functions[i]? = some functions[i] := List.getElem?_eq_getElem h
  refine ⟨functions[i], hf, ?_, ?_, ?_⟩
  · rw [header, hf]
    rfl
  · rw [body, hf]
    rfl
  · rw [name?, hf]
    rfl

namespace Value

/-- What a record or a function is by itself, whatever it contains. -/
def Sound : Value → Prop
  | record _ fields => fields ≠ [] ∧ (fields.map (·.1)).Nodup
  | closure code _ => code.InGroup
  | _ => True

/-- **The value is well formed**: all records in it have fields, and under distinct names, and all
functions have positions in their groups, at any depth and also in what functions remember. -/
def WellFormed (v : Value) : Prop := v.All Sound

/-- What evaluation keeps to: besides being sound, the functions have tidy code. -/
def Regular (v : Value) : Prop := v.Sound ∧ v.Functions fun code _ => code.Tidy

variable {v : Value}

theorem all_regular : v.All Regular ↔
    v.WellFormed ∧ v.All (Functions fun code _ => code.Tidy) := forall₂_and

theorem wellFormed_of_isFlat (h : v.isFlat) : v.WellFormed := by
  intro u hu
  rw [parts_of_isFlat h, List.mem_singleton] at hu
  subst hu
  cases u with
  | closure code env => cases h
  | record stamp fields => cases h
  | _ => trivial

theorem regular_of_isFlat (h : v.isFlat) : v.All Regular :=
  all_regular.mpr ⟨wellFormed_of_isFlat h, functions_of_isFlat h⟩

/-- Fields with distinct names make a sound record, or the value without fields. -/
theorem sound_ofFields (stamp : Stamp) {fields : List (Name × Value)}
    (h : (fields.map (·.1)).Nodup) : (ofFields stamp fields).Sound := by
  cases fields with
  | nil => trivial
  | cons f rest => exact ⟨List.cons_ne_nil f rest, h⟩

theorem mem_parts_self (v : Value) : v ∈ v.parts := by
  cases v <;> simp [parts]

/-- What comparisons find in a value is part of it. -/
theorem Contains.mem_parts {u : Value} (h : v.Contains u) : u ∈ v.parts := by
  induction h with
  | refl v => exact mem_parts_self v
  | field mem inside ih =>
    rw [parts, List.mem_cons]
    exact .inr (mem_partsOfFields.mpr ⟨_, mem, ih⟩)
  | payload tag inside ih => exact List.mem_cons_of_mem _ ih

namespace WellFormed

variable (h : v.WellFormed)
include h

/-- **Comparisons of well-formed values can rely on distinct names.** -/
theorem distinct : v.Distinct := fun _ _ hfound => (h _ hfound.mem_parts).2

/-- **To look a field up is to find the one field with the name.** -/
theorem field?_iff {stamp : Stamp} {fields : List (Name × Value)}
    (hpart : .record stamp fields ∈ v.parts) (x : Name) (u : Value) :
    field? x fields = some u ↔ (x, u) ∈ fields := field?_eq_some_iff (h _ hpart).2

theorem inGroup {code : Code} {env : Env} (hpart : .closure code env ∈ v.parts) : code.InGroup :=
  h _ hpart

end WellFormed
end Value

/-! ## Evaluation -/

/-- **Regularity is an invariant of evaluation** where host objects keep to it. -/
theorem regular_tracking {cx : Context} (hi : cx.invoke = World.invoke) {start : World}
    (hstart : start.Preserves Value.Regular) :
    Tracking cx Value.Regular (fun | .eval _ t _ => t.Tidy | .apply .. => True)
      (start.LeadsTo Value.Regular) where
  step {j new k} hj hgood h := by
    cases k with
    | apply code env args site m => trivial
    | eval inner u m₁ =>
      cases j with
      | eval env t m =>
        obtain ⟨i, hpart⟩ := Context.part_of_calls h
        obtain ⟨bound, hi, -⟩ := hpart.shape
        exact Term.Tidy.part hj hi
      | apply code env args site m =>
        obtain ⟨rfl, -⟩ := Context.names_of_entered h
        exact (Value.all_closure.mp hgood.1).1.2.body
  literal l := by cases l <;> exact ⟨trivial, trivial⟩
  lambda hj := ⟨trivial, Term.tidy_lambda.mp hj⟩
  group hj i hlt := ⟨hlt, (Term.tidy_letRec.mp hj).1⟩
  members hgood _ hlt := ⟨hlt, hgood.2⟩
  record {env span fields m} hj stamp values hlength := by
    refine ⟨Value.sound_ofFields stamp ?_, Value.functions_ofFields⟩
    rw [List.map_fst_zip (by simp [hlength])]
    exact (Term.tidy_record.mp hj).1
  variant _ _ := ⟨trivial, trivial⟩
  stamp _ hw := hw.stamp
  operator _ hvalues hw happly :=
    Operator.apply_leadsTo hi hw hstart (fun _ => Value.regular_of_isFlat) hvalues happly

namespace Request

/-- The work that a request sets a machine. -/
def job (m : Machine) : Request → Job
  | .eval env t => .eval env t m
  | .apply code env args site => .apply code env args site m

/-- The term to evaluate is tidy, if the request is for one. -/
def Tidy : Request → Prop
  | .eval _ t => t.Tidy
  | .apply .. => True

end Request

end CapLang
