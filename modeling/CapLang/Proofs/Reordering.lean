import CapLang.Proofs.Akin
import Mathlib.Data.List.Nodup
import Mathlib.Data.List.Perm.Basic

/-!
# Values up to the order of fields

A value contains itself and whatever its fields or its payload contain.  Two values are reorderings
of each other if they are the same tree up to the order of the fields in their records
(`Value.Reordered`), which is an equivalence relation.  What functions remember plays no part in
this: values are looked at as comparisons look at them.
-/
namespace CapLang

namespace Value

/-- The second value is found in the first one, at any depth. -/
inductive Contains : Value → Value → Prop
  | refl (v : Value) : Contains v v
  | field {stamp : Stamp} {fields : List (Name × Value)} {f : Name × Value} {u : Value}
      (mem : f ∈ fields) (inside : Contains f.2 u) : Contains (.record stamp fields) u
  | payload (tag : Name) {v u : Value} (inside : Contains v u) : Contains (.variant tag v) u

/-- The value contains no function and no capability. -/
def IsData (v : Value) : Prop := ∀ u, v.Contains u → u.isFirstOrder

/-- The fields of each record have distinct names. -/
def Distinct (v : Value) : Prop :=
  ∀ stamp fields, v.Contains (.record stamp fields) → (fields.map (·.1)).Nodup

/-- **Two values are the same up to the order of fields** in their records.  Functions have the same
code, and what they remember may differ in any way. -/
inductive Reordered : Value → Value → Prop
  | int (n : Int64) : Reordered (.int n) (.int n)
  | bool (b : Bool) : Reordered (.bool b) (.bool b)
  | str (s : String) : Reordered (.str s) (.str s)
  | unit : Reordered .unit .unit
  | closure (code : Code) (env₁ env₂ : Env) : Reordered (.closure code env₁) (.closure code env₂)
  | record (s₁ s₂ : Stamp) {xs us ys : List (Name × Value)}
      (fields : Entrywise Eq Reordered xs us) (order : us.Perm ys) :
      Reordered (.record s₁ xs) (.record s₂ ys)
  | variant (tag : Name) {v w : Value} (payload : Reordered v w) :
      Reordered (.variant tag v) (.variant tag w)
  | capability (h : Handle) : Reordered (.capability h) (.capability h)

end Value

/-! ## Induction on what a value contains -/

section Induction

variable {motive : Value → Prop} (int : ∀ n, motive (.int n)) (bool : ∀ b, motive (.bool b))
  (str : ∀ s, motive (.str s)) (unit : motive .unit)
  (closure : ∀ code env, motive (.closure code env))
  (record : ∀ stamp fields, (∀ f ∈ fields, motive f.2) → motive (.record stamp fields))
  (variant : ∀ tag payload, motive payload → motive (.variant tag payload))
  (capability : ∀ h, motive (.capability h))

include int bool str unit closure record variant capability in
/-- Induction on a value where nothing is asked of what functions remember. -/
@[elab_as_elim]
theorem Value.induction (v : Value) : motive v :=
  @Value.rec motive (fun _ => True) (fun fields => ∀ f ∈ fields, motive f.2) (fun f => motive f.2)
    int bool str unit (fun code env _ => closure code env) record variant capability trivial
    (fun _ _ _ _ _ => trivial) nofun (fun _ _ hf hrest => List.forall_mem_cons.mpr ⟨hf, hrest⟩)
    (fun _ _ hv => hv) v

end Induction

/-! ## Lists that correspond entry by entry -/

section Lists

variable {α β γ : Type} {P : α → β → Prop} {xs : List α} {ys : List β}

theorem forall₂_comp {Q : β → γ → Prop} {R : α → γ → Prop} {zs : List γ}
    (hcomp : ∀ a b c, P a b → Q b c → R a c) (h : List.Forall₂ P xs ys)
    (h' : List.Forall₂ Q ys zs) : List.Forall₂ R xs zs := by
  induction h generalizing zs with
  | nil =>
    cases h'
    exact .nil
  | cons entry rest ih =>
    cases h' with
    | cons entry' rest' => exact .cons (hcomp _ _ _ entry entry') (ih rest')

theorem exists_of_forall₂ (h : List.Forall₂ P xs ys) {a : α} (ha : a ∈ xs) :
    ∃ b ∈ ys, P a b := by
  induction h with
  | nil => cases ha
  | @cons _ b _ bs entry rest ih =>
    rcases List.mem_cons.mp ha with rfl | ha
    · exact ⟨b, List.mem_cons_self, entry⟩
    · obtain ⟨c, hc, hentry⟩ := ih ha
      exact ⟨c, List.mem_cons_of_mem b hc, hentry⟩

theorem forall₂_of_exists (h : ∀ a ∈ xs, ∃ b ∈ ys, P a b) :
    ∃ zs, List.Forall₂ P xs zs ∧ zs ⊆ ys := by
  induction xs with
  | nil => exact ⟨[], .nil, List.nil_subset ys⟩
  | cons a as ih =>
    obtain ⟨⟨b, hb, hentry⟩, hrest⟩ := List.forall_mem_cons.mp h
    obtain ⟨zs, hzs, hsub⟩ := ih hrest
    exact ⟨b :: zs, .cons hentry hzs, List.cons_subset.mpr ⟨hb, hsub⟩⟩

end Lists

namespace Value

/-! ## What values contain -/

theorem contains_record {stamp : Stamp} {fields : List (Name × Value)} {u : Value} :
    (record stamp fields).Contains u ↔ u = record stamp fields ∨ ∃ f ∈ fields, f.2.Contains u := by
  constructor
  · intro h
    cases h with
    | refl => exact .inl rfl
    | field mem inside => exact .inr ⟨_, mem, inside⟩
  · rintro (rfl | ⟨f, mem, inside⟩)
    · exact .refl _
    · exact .field mem inside

theorem contains_variant {tag : Name} {v u : Value} :
    (variant tag v).Contains u ↔ u = variant tag v ∨ v.Contains u := by
  constructor
  · intro h
    cases h with
    | refl => exact .inl rfl
    | payload _ inside => exact .inr inside
  · rintro (rfl | inside)
    · exact .refl _
    · exact .payload tag inside

theorem IsData.isFirstOrder {v : Value} (h : v.IsData) : v.isFirstOrder := h v (.refl v)

@[simp] theorem isData_int (n : Int64) : (int n).IsData := by
  intro u hu
  cases hu
  rfl

@[simp] theorem isData_bool (b : Bool) : (bool b).IsData := by
  intro u hu
  cases hu
  rfl

@[simp] theorem isData_str (s : String) : (str s).IsData := by
  intro u hu
  cases hu
  rfl

@[simp] theorem isData_unit : unit.IsData := by
  intro u hu
  cases hu
  rfl

@[simp] theorem isData_record {stamp : Stamp} {fields : List (Name × Value)} :
    (record stamp fields).IsData ↔ ∀ f ∈ fields, f.2.IsData := by
  unfold IsData
  simp only [contains_record]
  constructor
  · exact fun h f hf u hu => h u (.inr ⟨f, hf, hu⟩)
  · rintro h u (rfl | ⟨f, hf, hu⟩)
    · rfl
    · exact h f hf u hu

@[simp] theorem isData_variant {tag : Name} {v : Value} : (variant tag v).IsData ↔ v.IsData := by
  unfold IsData
  simp only [contains_variant]
  constructor
  · exact fun h u hu => h u (.inr hu)
  · rintro h u (rfl | hu)
    · rfl
    · exact h u hu

@[simp] theorem distinct_int (n : Int64) : (int n).Distinct := by
  intro s fields h
  cases h

@[simp] theorem distinct_bool (b : Bool) : (bool b).Distinct := by
  intro s fields h
  cases h

@[simp] theorem distinct_str (s : String) : (str s).Distinct := by
  intro s' fields h
  cases h

@[simp] theorem distinct_unit : unit.Distinct := by
  intro s fields h
  cases h

@[simp] theorem distinct_closure (code : Code) (env : Env) : (closure code env).Distinct := by
  intro s fields h
  cases h

@[simp] theorem distinct_capability (h : Handle) : (capability h).Distinct := by
  intro s fields h
  cases h

@[simp] theorem distinct_record {stamp : Stamp} {fields : List (Name × Value)} :
    (record stamp fields).Distinct ↔
      (fields.map (·.1)).Nodup ∧ ∀ f ∈ fields, f.2.Distinct := by
  unfold Distinct
  simp only [contains_record]
  constructor
  · exact fun h => ⟨h stamp fields (.inl rfl), fun f hf s fs hfs => h s fs (.inr ⟨f, hf, hfs⟩)⟩
  · rintro ⟨hnames, hfields⟩ s fs (heq | ⟨f, hf, hfs⟩)
    · cases heq
      exact hnames
    · exact hfields f hf s fs hfs

@[simp] theorem distinct_variant {tag : Name} {v : Value} : (variant tag v).Distinct ↔ v.Distinct := by
  unfold Distinct
  simp only [contains_variant, reduceCtorEq, false_or]

/-! ## Fields -/

theorem mem_of_field? {fields : List (Name × Value)} {x : Name} {v : Value}
    (h : field? x fields = some v) : (x, v) ∈ fields := by
  obtain ⟨f, hf, rfl⟩ := Option.map_eq_some_iff.mp h
  have hx : f.1 = x := by simpa using List.find?_some hf
  rw [← hx]
  exact List.mem_of_find?_eq_some hf

/-- Among distinct names the first field with a name is the only one. -/
theorem field?_eq_some_iff {fields : List (Name × Value)} (hnames : (fields.map (·.1)).Nodup)
    {x : Name} {v : Value} : field? x fields = some v ↔ (x, v) ∈ fields := by
  constructor
  · exact mem_of_field?
  · intro hmem
    rw [field?, Option.map_eq_some_iff]
    cases hf : fields.find? (·.1 == x) with
    | none =>
      have hother := List.find?_eq_none.mp hf _ hmem
      simp at hother
    | some g =>
      have hx : g.1 = x := by simpa using List.find?_some hf
      have hg := List.inj_on_of_nodup_map hnames (List.mem_of_find?_eq_some hf) hmem hx
      exact ⟨g, rfl, by rw [hg]⟩

/-! ## Reordering -/

namespace Reordered

@[refl]
theorem refl (v : Value) : v.Reordered v := by
  induction v using Value.induction with
  | int n => exact .int n
  | bool b => exact .bool b
  | str s => exact .str s
  | unit => exact .unit
  | closure code env => exact .closure code env env
  | record s fields ih => exact .record s s (.of_forall fun f hf => ⟨rfl, ih f hf⟩) (.refl fields)
  | variant tag v ih => exact .variant tag ih
  | capability h => exact .capability h

/-- The relation between fields that `Reordered` asks for, whatever their order. -/
def Field (f g : Name × Value) : Prop := f.1 = g.1 ∧ f.2.Reordered g.2

theorem record_iff {s₁ s₂ : Stamp} {xs ys : List (Name × Value)} :
    (Value.record s₁ xs).Reordered (.record s₂ ys) ↔
      ∃ us, List.Forall₂ Field xs us ∧ us.Perm ys := by
  constructor
  · intro h
    cases h with
    | record _ _ fields order => exact ⟨_, Entrywise.iff_forall₂.mp fields, order⟩
  · rintro ⟨us, fields, order⟩
    exact .record s₁ s₂ (Entrywise.iff_forall₂.mpr fields) order

theorem symm {v w : Value} (h : v.Reordered w) : w.Reordered v := by
  induction v using Value.induction generalizing w with
  | record s xs ih =>
    cases w with
    | record s' ys =>
      obtain ⟨us, fields, order⟩ := record_iff.mp h
      have hback : List.Forall₂ (flip Field) xs us :=
        ((List.forall₂_and_left xs us).mpr ⟨ih, fields⟩).imp fun _ _ hf =>
          ⟨hf.2.1.symm, hf.1 hf.2.2⟩
      obtain ⟨vs, hfields, horder⟩ := List.perm_comp_forall₂ order.symm hback.flip
      exact record_iff.mpr ⟨vs, hfields, horder⟩
    | _ => cases h
  | variant tag v ih =>
    cases h with
    | variant _ payload => exact .variant tag (ih payload)
  | closure code env =>
    cases h with
    | closure _ _ env' => exact .closure code env' env
  | _ =>
    cases h
    constructor

theorem trans {u v w : Value} (h : u.Reordered v) (h' : v.Reordered w) : u.Reordered w := by
  induction u using Value.induction generalizing v w with
  | record s xs ih =>
    cases h with
    | @record _ s₁ _ us ys fields order =>
      cases w with
      | record s₂ zs =>
        rw [Entrywise.iff_forall₂] at fields
        obtain ⟨vs, fields', order'⟩ := record_iff.mp h'
        -- What corresponds to the fields in their second order is put in their first order.
        obtain ⟨ws, hfields, horder⟩ := List.perm_comp_forall₂ order fields'
        have hcomp := forall₂_comp (R := Field) (fun _ _ _ hf hg =>
          ⟨hf.2.1.trans hg.1, hf.1 hf.2.2 hg.2⟩)
          ((List.forall₂_and_left xs us).mpr ⟨ih, fields⟩) hfields
        exact record_iff.mpr ⟨ws, hcomp, horder.trans order'⟩
      | _ => cases h'
  | variant tag v ih =>
    cases h with
    | variant _ payload =>
      cases h' with
      | variant _ payload' => exact .variant tag (ih payload payload')
  | closure code env =>
    cases h with
    | closure _ _ env₁ =>
      cases h' with
      | closure _ _ env₂ => exact .closure code env env₂
  | _ =>
    cases h
    exact h'

/-! ### What a reordering keeps -/

variable {v w : Value} {s₁ s₂ : Stamp} {xs ys : List (Name × Value)}

theorem isFirstOrder_eq (h : v.Reordered w) : v.isFirstOrder = w.isFirstOrder := by
  cases h <;> rfl

theorem typeName_eq (h : v.Reordered w) : v.typeName = w.typeName := by
  cases h <;> rfl

theorem names_eq (h : List.Forall₂ Field xs ys) : xs.map (·.1) = ys.map (·.1) := by
  rw [← List.forall₂_eq_eq_eq, List.forall₂_map_left_iff, List.forall₂_map_right_iff]
  exact h.imp fun _ _ hf => hf.1

theorem names_perm (h : (Value.record s₁ xs).Reordered (.record s₂ ys)) :
    (xs.map (·.1)).Perm (ys.map (·.1)) := by
  obtain ⟨us, fields, order⟩ := record_iff.mp h
  rw [names_eq fields]
  exact order.map _

theorem length_eq (h : (Value.record s₁ xs).Reordered (.record s₂ ys)) :
    xs.length = ys.length := by
  simpa only [List.length_map] using h.names_perm.length_eq

/-- A field of the one record corresponds to one of the other. -/
theorem exists_field (h : (Value.record s₁ xs).Reordered (.record s₂ ys)) {f : Name × Value}
    (hf : f ∈ xs) : ∃ g ∈ ys, Field f g := by
  obtain ⟨us, fields, order⟩ := record_iff.mp h
  obtain ⟨g, hg, hfield⟩ := exists_of_forall₂ fields hf
  exact ⟨g, order.mem_iff.mp hg, hfield⟩

/-- Any field may be brought to the front. -/
theorem field_first {x : Name} (hmem : (x, v) ∈ xs) (h : v.Reordered w) :
    ∃ rest, (Value.record s₁ xs).Reordered (.record s₂ ((x, w) :: rest)) := by
  obtain ⟨before, after, rfl⟩ := List.append_of_mem hmem
  have hsame : ∀ fields, List.Forall₂ Field fields fields :=
    fun fields => List.forall₂_same.mpr fun f _ => ⟨rfl, refl f.2⟩
  refine ⟨before ++ after, record_iff.mpr ⟨before ++ (x, w) :: after, ?_, List.perm_middle⟩⟩
  exact List.rel_append (hsame before) (.cons ⟨rfl, h⟩ (hsame after))

/-- Fields of one name correspond. -/
theorem field?_rel (h : (Value.record s₁ xs).Reordered (.record s₂ ys))
    (hxs : (xs.map (·.1)).Nodup) (x : Name) :
    Option.Rel Reordered (field? x xs) (field? x ys) := by
  have hys : (ys.map (·.1)).Nodup := h.names_perm.nodup_iff.mp hxs
  cases hv : field? x xs with
  | some v =>
    obtain ⟨⟨y, w⟩, hmem, rfl, hvw⟩ := h.exists_field ((field?_eq_some_iff hxs).mp hv)
    rw [(field?_eq_some_iff hys).mpr hmem]
    exact .some hvw
  | none =>
    cases hw : field? x ys with
    | none => exact .none
    | some w =>
      obtain ⟨⟨y, v⟩, hmem, rfl, -⟩ := h.symm.exists_field ((field?_eq_some_iff hys).mp hw)
      rw [(field?_eq_some_iff hxs).mpr hmem] at hv
      cases hv

/-- Where names are distinct it is enough that each field corresponds to one, if there are no more
of them. -/
theorem of_fields (hnames : (xs.map (·.1)).Nodup) (hlength : ys.length ≤ xs.length)
    (h : ∀ f ∈ xs, ∃ g ∈ ys, Field f g) : (Value.record s₁ xs).Reordered (.record s₂ ys) := by
  obtain ⟨us, fields, hsub⟩ := forall₂_of_exists h
  have hnodup : us.Nodup := List.Nodup.of_map (·.1) (names_eq fields ▸ hnames)
  refine record_iff.mpr ⟨us, fields, ?_⟩
  exact (List.subperm_of_subset hnodup hsub).perm_of_length_le (fields.length_eq ▸ hlength)

theorem contains (h : v.Reordered w) {u : Value} (hu : v.Contains u) :
    ∃ u', w.Contains u' ∧ u.Reordered u' := by
  induction hu generalizing w with
  | refl v => exact ⟨w, .refl w, h⟩
  | field mem inside ih =>
    cases w with
    | record s ys =>
      obtain ⟨g, hg, hfield⟩ := h.exists_field mem
      obtain ⟨u', hu', hreordered⟩ := ih hfield.2
      exact ⟨u', .field hg hu', hreordered⟩
    | _ => cases h
  | payload tag inside ih =>
    cases h with
    | variant _ payload =>
      obtain ⟨u', hu', hreordered⟩ := ih payload
      exact ⟨u', .payload tag hu', hreordered⟩

theorem isData (h : v.Reordered w) (hv : v.IsData) : w.IsData := by
  intro u hu
  obtain ⟨u', hu', hreordered⟩ := h.symm.contains hu
  rw [hreordered.isFirstOrder_eq]
  exact hv u' hu'

theorem distinct (h : v.Reordered w) (hv : v.Distinct) : w.Distinct := by
  intro s fields hfields
  obtain ⟨u, hu, hreordered⟩ := h.symm.contains hfields
  cases u with
  | record s' fields' => exact hreordered.names_perm.nodup_iff.mpr (hv s' fields' hu)
  | _ => cases hreordered

end Reordered
end Value
end CapLang
