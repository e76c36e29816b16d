import CapLang.Proofs.Reordering
import CapLang.Value.Comparison

/-!
# What a comparison decides

A comparison of records tries the fields of the left one in their order, and the first that is not
equal to its partner decides.  `Value.compared` says once how comparisons go.

A comparison finds values equal just if they are the same data up to the order of fields
(`equals_same_data`).  It only looks for the fields of the one record in the other, but no field is
left over where names are distinct and there are equally many.

A comparison that does not find them equal has come upon parts that differ outright, or upon parts
that cannot be compared.  Where both are found, the order of the left operand's fields decides which
of them come first, and so whether there is an answer (`equals_reordered`).
-/
namespace CapLang
namespace Value

variable {a b v w : Value} {xs ys : List (Name × Value)} {answer : Except Cause Bool}

/-! ## What decides by itself -/

/-- No comparison of the two has an answer: one is a function or a capability, or they are of
different kinds. -/
def Incomparable (a b : Value) : Prop :=
  a.isFirstOrder = false ∨ b.isFirstOrder = false ∨ a.typeName ≠ b.typeName

/-- The two values differ by themselves, whatever they contain: as scalars, or in their tags, or in
the names of their fields. -/
inductive DiffersOutright : Value → Value → Prop
  | int {m n : Int64} (h : m ≠ n) : DiffersOutright (.int m) (.int n)
  | bool {a b : Bool} (h : a ≠ b) : DiffersOutright (.bool a) (.bool b)
  | str {s t : String} (h : s ≠ t) : DiffersOutright (.str s) (.str t)
  | names {s₁ s₂ : Stamp} {xs ys : List (Name × Value)}
      (h : ¬ (xs.map (·.1)).Perm (ys.map (·.1))) :
      DiffersOutright (.record s₁ xs) (.record s₂ ys)
  | tags {t u : Name} (h : t ≠ u) (v w : Value) :
      DiffersOutright (.variant t v) (.variant u w)

/-! ## Fields -/

theorem equalsFields_cons_none {f : Name × Value} (h : field? f.1 ys = none) :
    equalsFields ys (f :: xs) = .ok false := by
  rw [equalsFields, h]

theorem equalsFields_cons_equal {f : Name × Value} (h : field? f.1 ys = some w)
    (hw : f.2.equals w = .ok true) : equalsFields ys (f :: xs) = equalsFields ys xs := by
  rw [equalsFields, h]
  simp only [hw]

theorem equalsFields_cons_decided {f : Name × Value} (h : field? f.1 ys = some w)
    (hw : f.2.equals w ≠ .ok true) : equalsFields ys (f :: xs) = f.2.equals w := by
  rw [equalsFields, h]
  cases hanswer : f.2.equals w with
  | ok equal =>
    cases equal with
    | true => exact absurd hanswer hw
    | false => simp only [hanswer]
  | error cause => simp only [hanswer]

/-- Fields are equal to those of another record if each has an equal one of its name there. -/
theorem equalsFields_eq_true_iff : equalsFields ys xs = .ok true ↔
    ∀ f ∈ xs, ∃ w, field? f.1 ys = some w ∧ f.2.equals w = .ok true := by
  induction xs with
  | nil => simp [equalsFields]
  | cons f fs ih =>
    rw [List.forall_mem_cons, ← ih]
    cases hw : field? f.1 ys with
    | none => simp [equalsFields_cons_none hw]
    | some w =>
      by_cases hequal : f.2.equals w = .ok true
      · simp [equalsFields_cons_equal hw hequal, hequal]
      · simp [equalsFields_cons_decided hw hequal, hequal]

/-- Any other answer is decided by one of the fields. -/
theorem equalsFields_decided (h : equalsFields ys xs ≠ .ok true) : ∃ f ∈ xs,
    (field? f.1 ys = none ∧ equalsFields ys xs = .ok false) ∨
      ∃ w, field? f.1 ys = some w ∧ equalsFields ys xs = f.2.equals w ∧
        f.2.equals w ≠ .ok true := by
  induction xs with
  | nil => exact absurd rfl h
  | cons f fs ih =>
    cases hw : field? f.1 ys with
    | none => exact ⟨f, List.mem_cons_self, .inl ⟨hw, equalsFields_cons_none hw⟩⟩
    | some w =>
      by_cases hequal : f.2.equals w = .ok true
      · rw [equalsFields_cons_equal hw hequal] at h ⊢
        obtain ⟨g, hg, hdecided⟩ := ih h
        exact ⟨g, List.mem_cons_of_mem f hg, hdecided⟩
      · exact ⟨f, List.mem_cons_self, .inr ⟨w, hw, equalsFields_cons_decided hw hequal, hequal⟩⟩

/-- Nothing but the answers for fields of one name counts. -/
theorem equalsFields_congr {zs : List (Name × Value)} (h : ∀ f ∈ xs,
    Option.Rel (fun v w => f.2.equals v = f.2.equals w) (field? f.1 ys) (field? f.1 zs)) :
    equalsFields ys xs = equalsFields zs xs := by
  induction xs with
  | nil => rfl
  | cons f fs ih =>
    obtain ⟨hf, hfs⟩ := List.forall_mem_cons.mp h
    rw [equalsFields, equalsFields, ih hfs]
    generalize field? f.1 ys = found₁ at hf
    generalize field? f.1 zs = found₂ at hf
    cases hf with
    | none => rfl
    | some hsame => simp only [hsame]

/-! ## How a comparison goes -/

/-- **How a comparison goes**, and the answer that it comes to.  Fields are tried until one of them
decides; all of them are equal to those of their name if none does. -/
inductive Compared : Value → Value → Except Cause Bool → Prop
  | incomparable {a b : Value} (h : Incomparable a b) (cause : Cause) :
      Compared a b (.error cause)
  | differs {a b : Value} (h : DiffersOutright a b) : Compared a b (.ok false)
  | same {a : Value} (data : a.IsData) : Compared a a (.ok true)
  | fields {s₁ s₂ : Stamp} {xs ys : List (Name × Value)} (lengths : xs.length = ys.length)
      (partner : Name → Value) (found : ∀ f ∈ xs, field? f.1 ys = some (partner f.1))
      (equal : ∀ f ∈ xs, Compared f.2 (partner f.1) (.ok true)) :
      Compared (.record s₁ xs) (.record s₂ ys) (.ok true)
  | field {s₁ s₂ : Stamp} {xs ys : List (Name × Value)} (lengths : xs.length = ys.length)
      {x : Name} {v w : Value} (mem : (x, v) ∈ xs) (found : field? x ys = some w)
      {answer : Except Cause Bool} (inside : Compared v w answer) (unequal : answer ≠ .ok true) :
      Compared (.record s₁ xs) (.record s₂ ys) answer
  | payload (t : Name) {v w : Value} {answer : Except Cause Bool} (inside : Compared v w answer) :
      Compared (.variant t v) (.variant t w) answer

/-- Records with equally many fields are compared field by field. -/
theorem compared_fields {s₁ s₂ : Stamp} (lengths : xs.length = ys.length)
    (ih : ∀ f ∈ xs, ∀ w, Compared f.2 w (f.2.equals w)) :
    Compared (.record s₁ xs) (.record s₂ ys) (equalsFields ys xs) := by
  by_cases hequal : equalsFields ys xs = .ok true
  · rw [hequal]
    rw [equalsFields_eq_true_iff] at hequal
    refine .fields lengths (fun x => (field? x ys).getD .unit) (fun f hf => ?_) fun f hf => ?_
    · obtain ⟨w, hw, -⟩ := hequal f hf
      rw [hw, Option.getD_some]
    · obtain ⟨w, hw, hanswer⟩ := hequal f hf
      rw [hw, Option.getD_some, ← hanswer]
      exact ih f hf w
  · obtain ⟨f, hf, ⟨hnone, hfalse⟩ | ⟨w, hw, hanswer, hunequal⟩⟩ := equalsFields_decided hequal
    · rw [hfalse]
      refine .differs (.names fun hperm => ?_)
      have hfound := field?_isSome.mpr (hperm.mem_iff.mp (List.mem_map_of_mem hf))
      rw [hnone] at hfound
      cases hfound
    · rw [hanswer]
      exact .field lengths hf hw (ih f hf w) hunequal

theorem compared (a b : Value) : Compared a b (a.equals b) := by
  -- Values of different kinds fall into the last case of each kind.
  induction a using Value.induction generalizing b with
  | int m =>
    cases b with
    | int n =>
      rw [equals]
      by_cases h : m = n
      · rw [h, beq_self_eq_true]
        exact .same (isData_int n)
      · rw [beq_false_of_ne h]
        exact .differs (.int h)
    | _ => exact .incomparable (by simp [Incomparable, isFirstOrder, typeName]) _
  | bool c =>
    cases b with
    | bool d =>
      rw [equals]
      by_cases h : c = d
      · rw [h, beq_self_eq_true]
        exact .same (isData_bool d)
      · rw [beq_false_of_ne h]
        exact .differs (.bool h)
    | _ => exact .incomparable (by simp [Incomparable, isFirstOrder, typeName]) _
  | str s =>
    cases b with
    | str t =>
      rw [equals]
      by_cases h : s = t
      · rw [h, beq_self_eq_true]
        exact .same (isData_str t)
      · rw [beq_false_of_ne h]
        exact .differs (.str h)
    | _ => exact .incomparable (by simp [Incomparable, isFirstOrder, typeName]) _
  | unit =>
    cases b with
    | unit => exact .same isData_unit
    | _ => exact .incomparable (by simp [Incomparable, isFirstOrder, typeName]) _
  | closure code env => exact .incomparable (.inl rfl) _
  | record s₁ xs ih =>
    cases b with
    | record s₂ ys =>
      rw [equals]
      split
      · next lengths => exact compared_fields lengths ih
      · next lengths =>
        refine .differs (.names fun hperm => lengths ?_)
        simpa only [List.length_map] using hperm.length_eq
    | _ => exact .incomparable (by simp [Incomparable, isFirstOrder, typeName]) _
  | variant t v ih =>
    cases b with
    | variant u w =>
      rw [equals]
      split
      · next htags =>
        obtain rfl := htags
        exact .payload t (ih w)
      · next htags => exact .differs (.tags htags v w)
    | _ => exact .incomparable (by simp [Incomparable, isFirstOrder, typeName]) _
  | capability h => exact .incomparable (.inl rfl) _

theorem Incomparable.equals (h : Incomparable a b) : ∃ cause, a.equals b = .error cause := by
  cases a <;> cases b <;>
    first
    | exact ⟨_, rfl⟩
    | simp [Incomparable, isFirstOrder, typeName] at h

/-! ## The right operand -/

/-- **The right operand may be reordered** without any change to the answer. -/
theorem equals_reordered_right (hb : b.Distinct) (h : b.Reordered v) : a.equals v = a.equals b := by
  induction a using Value.induction generalizing b v with
  | record s xs ih =>
    cases b with
    | record s₁ ys =>
      cases v with
      | record s₂ zs =>
        obtain ⟨hnames, hfields⟩ := distinct_record.mp hb
        have hsame : equalsFields ys xs = equalsFields zs xs := by
          refine equalsFields_congr fun f hf => ?_
          have hfound := h.field?_rel hnames f.1
          generalize field? f.1 zs = found at hfound ⊢
          cases hv : field? f.1 ys with
          | none =>
            rw [hv] at hfound
            cases hfound
            exact .none
          | some v =>
            rw [hv] at hfound
            have hdistinct := hfields _ ((field?_eq_some_iff hnames).mp hv)
            cases hfound with
            | some hvw => exact .some (ih f hf hdistinct hvw).symm
        rw [equals, equals, h.length_eq, hsame]
      | _ => cases h
    | _ =>
      cases h
      rfl
  | variant t u ih =>
    cases h with
    | variant t' payload => simp only [equals, ih (distinct_variant.mp hb) payload]
    | _ => rfl
  | _ =>
    cases h <;> rfl

/-! ## Equal values -/

/-- Data is equal to itself. -/
theorem equals_self (ha : a.Distinct) (hdata : a.IsData) : a.equals a = .ok true := by
  induction a using Value.induction with
  | record s xs ih =>
    obtain ⟨hnames, hfields⟩ := distinct_record.mp ha
    rw [equals, if_pos rfl, equalsFields_eq_true_iff]
    intro f hf
    refine ⟨f.2, (field?_eq_some_iff hnames).mpr hf, ?_⟩
    exact ih f hf (hfields f hf) (isData_record.mp hdata f hf)
  | variant t v ih =>
    rw [equals, if_pos rfl]
    exact ih (distinct_variant.mp ha) (isData_variant.mp hdata)
  | closure code env => cases hdata.isFirstOrder
  | capability h => cases hdata.isFirstOrder
  | _ => simp [equals]

/-- Values that are equal are data, and the same up to the order of fields. -/
theorem Compared.isData_reordered (hc : Compared a b answer) (ha : a.Distinct)
    (h : answer = .ok true) : a.IsData ∧ a.Reordered b := by
  induction hc with
  | incomparable => cases h
  | differs => cases h
  | same data => exact ⟨data, .refl _⟩
  | fields lengths partner found _ ih =>
    obtain ⟨hnames, hdistinct⟩ := distinct_record.mp ha
    have hfields := fun f hf => ih f hf (hdistinct f hf) rfl
    refine ⟨isData_record.mpr fun f hf => (hfields f hf).1, ?_⟩
    refine .of_fields hnames (Nat.le_of_eq lengths.symm) fun f hf => ?_
    exact ⟨(f.1, partner f.1), mem_of_field? (found f hf), rfl, (hfields f hf).2⟩
  | field _ _ _ _ unequal => exact absurd h unequal
  | payload t _ ih =>
    obtain ⟨hdata, hreordered⟩ := ih (distinct_variant.mp ha) h
    exact ⟨isData_variant.mpr hdata, .variant t hreordered⟩

/-- **Values are equal just if they are data and the same up to the order of fields.** -/
theorem equals_eq_true_iff (ha : a.Distinct) :
    a.equals b = .ok true ↔ a.IsData ∧ a.Reordered b := by
  constructor
  · exact (compared a b).isData_reordered ha
  · rintro ⟨hdata, h⟩
    rw [equals_reordered_right ha h]
    exact equals_self ha hdata

theorem equal_symm (ha : a.Distinct) (hb : b.Distinct) (h : a.equals b = .ok true) :
    b.equals a = .ok true := by
  obtain ⟨hdata, hreordered⟩ := (equals_eq_true_iff ha).mp h
  exact (equals_eq_true_iff hb).mpr ⟨hreordered.isData hdata, hreordered.symm⟩

theorem equal_trans {c : Value} (ha : a.Distinct) (hb : b.Distinct) (h : a.equals b = .ok true)
    (h' : b.equals c = .ok true) : a.equals c = .ok true := by
  obtain ⟨hdata, hab⟩ := (equals_eq_true_iff ha).mp h
  obtain ⟨-, hbc⟩ := (equals_eq_true_iff hb).mp h'
  exact (equals_eq_true_iff ha).mpr ⟨hdata, hab.trans hbc⟩

/-- Reordering both operands keeps it whether they are equal. -/
theorem equal_of_reordered {a' b' : Value} (ha : a.Distinct) (ha' : a.Reordered a')
    (hb' : b.Reordered b') (h : a.equals b = .ok true) : a'.equals b' = .ok true := by
  obtain ⟨hdata, hab⟩ := (equals_eq_true_iff ha).mp h
  exact (equals_eq_true_iff (ha'.distinct ha)).mpr
    ⟨ha'.isData hdata, (ha'.symm.trans hab).trans hb'⟩

/-! ## Other answers -/

/-- **Parts of two values that a comparison may come upon together**: they are reached through equal
tags, and through fields of one name in records with equally many fields. -/
inductive Meets : Value → Value → Value → Value → Prop
  | here (a b : Value) : Meets a b a b
  | field {s₁ s₂ : Stamp} {xs ys : List (Name × Value)} {x : Name} {v w u u' : Value}
      (lengths : xs.length = ys.length) (left : (x, v) ∈ xs) (right : (x, w) ∈ ys)
      (inside : Meets v w u u') : Meets (.record s₁ xs) (.record s₂ ys) u u'
  | payload (t : Name) {v w u u' : Value} (inside : Meets v w u u') :
      Meets (.variant t v) (.variant t w) u u'

/-- Some parts that meet are in the relation. -/
def Somewhere (R : Value → Value → Prop) (a b : Value) : Prop := ∃ u w, Meets a b u w ∧ R u w

/-- Some parts that meet differ outright. -/
def Differs : Value → Value → Prop := Somewhere DiffersOutright

/-- Some parts that meet cannot be compared. -/
def Clashes : Value → Value → Prop := Somewhere Incomparable

namespace Meets

variable {u u' : Value}

theorem symm (h : Meets a b u u') : Meets b a u' u := by
  induction h with
  | here a b => exact .here b a
  | field lengths left right _ ih => exact .field lengths.symm right left ih
  | payload t _ ih => exact .payload t ih

theorem reordered (h : Meets a b u u') {a' b' : Value} (ha : a.Reordered a')
    (hb : b.Reordered b') : ∃ w w', Meets a' b' w w' ∧ u.Reordered w ∧ u'.Reordered w' := by
  induction h generalizing a' b' with
  | here a b => exact ⟨a', b', .here a' b', ha, hb⟩
  | field lengths left right _ ih =>
    cases a' with
    | record s₁ xs' =>
      cases b' with
      | record s₂ ys' =>
        obtain ⟨⟨x, v⟩, hleft, rfl, hv⟩ := ha.exists_field left
        obtain ⟨⟨y, w⟩, hright, rfl, hw⟩ := hb.exists_field right
        obtain ⟨w, w', hmeets, hu, hu'⟩ := ih hv hw
        have hlengths : xs'.length = ys'.length := by
          rw [← ha.length_eq, ← hb.length_eq, lengths]
        exact ⟨w, w', .field hlengths hleft hright hmeets, hu, hu'⟩
      | _ => cases hb
    | _ => cases ha
  | payload t _ ih =>
    cases ha with
    | variant _ payload =>
      cases hb with
      | variant _ payload' =>
        obtain ⟨w, w', hmeets, hu, hu'⟩ := ih payload payload'
        exact ⟨w, w', .payload t hmeets, hu, hu'⟩

end Meets

theorem DiffersOutright.symm (h : DiffersOutright a b) : DiffersOutright b a := by
  cases h with
  | int h => exact .int h.symm
  | bool h => exact .bool h.symm
  | str h => exact .str h.symm
  | names h => exact .names fun hperm => h hperm.symm
  | tags h v w => exact .tags h.symm w v

theorem DiffersOutright.reordered (h : DiffersOutright a b) {a' b' : Value} (ha : a.Reordered a')
    (hb : b.Reordered b') : DiffersOutright a' b' := by
  cases h with
  | int h | bool h | str h =>
    cases ha
    cases hb
    constructor
    exact h
  | names h =>
    cases a' with
    | record =>
      cases b' with
      | record => exact .names fun hperm => h ((ha.names_perm.trans hperm).trans hb.names_perm.symm)
      | _ => cases hb
    | _ => cases ha
  | tags h v w =>
    cases ha
    cases hb
    exact .tags h _ _

theorem Incomparable.symm (h : Incomparable a b) : Incomparable b a := by
  obtain h | h | h := h
  · exact .inr (.inl h)
  · exact .inl h
  · exact .inr (.inr h.symm)

theorem Incomparable.reordered (h : Incomparable a b) {a' b' : Value} (ha : a.Reordered a')
    (hb : b.Reordered b') : Incomparable a' b' := by
  unfold Incomparable at h ⊢
  rwa [← ha.isFirstOrder_eq, ← hb.isFirstOrder_eq, ← ha.typeName_eq, ← hb.typeName_eq]

theorem Somewhere.symm {R : Value → Value → Prop} (hR : ∀ {u w}, R u w → R w u)
    (h : Somewhere R a b) : Somewhere R b a := by
  obtain ⟨u, w, hmeets, hrelated⟩ := h
  exact ⟨w, u, hmeets.symm, hR hrelated⟩

theorem Somewhere.reordered {R : Value → Value → Prop}
    (hR : ∀ {u w}, R u w → ∀ {u' w'}, u.Reordered u' → w.Reordered w' → R u' w')
    (h : Somewhere R a b) {a' b' : Value} (ha : a.Reordered a') (hb : b.Reordered b') :
    Somewhere R a' b' := by
  obtain ⟨u, w, hmeets, hrelated⟩ := h
  obtain ⟨u', w', hmeets', hu, hw⟩ := hmeets.reordered ha hb
  exact ⟨u', w', hmeets', hR hrelated hu hw⟩

theorem Somewhere.field {R : Value → Value → Prop} {s₁ s₂ : Stamp} {x : Name}
    (lengths : xs.length = ys.length) (mem : (x, v) ∈ xs) (found : field? x ys = some w)
    (h : Somewhere R v w) : Somewhere R (record s₁ xs) (record s₂ ys) := by
  obtain ⟨u, u', hmeets, hrelated⟩ := h
  exact ⟨u, u', .field lengths mem (mem_of_field? found) hmeets, hrelated⟩

theorem Somewhere.payload {R : Value → Value → Prop} (t : Name) (h : Somewhere R v w) :
    Somewhere R (variant t v) (variant t w) := by
  obtain ⟨u, u', hmeets, hrelated⟩ := h
  exact ⟨u, u', .payload t hmeets, hrelated⟩

/-- Unless it finds them equal, a comparison ends at parts that differ outright or that cannot be
compared. -/
theorem Compared.unequal (hc : Compared a b answer) : answer = .ok true ∨
    (answer = .ok false ∧ Differs a b) ∨ ∃ cause, answer = .error cause ∧ Clashes a b := by
  induction hc with
  | incomparable h cause => exact .inr (.inr ⟨cause, rfl, _, _, .here _ _, h⟩)
  | differs h => exact .inr (.inl ⟨rfl, _, _, .here _ _, h⟩)
  | same | fields => exact .inl rfl
  | field lengths mem found _ unequal ih =>
    rcases ih with h | ⟨h, hdiffers⟩ | ⟨cause, h, hclashes⟩
    · exact absurd h unequal
    · exact .inr (.inl ⟨h, Somewhere.field lengths mem found hdiffers⟩)
    · exact .inr (.inr ⟨cause, h, Somewhere.field lengths mem found hclashes⟩)
  | payload t _ ih =>
    rcases ih with h | ⟨h, hdiffers⟩ | ⟨cause, h, hclashes⟩
    · exact .inl h
    · exact .inr (.inl ⟨h, Somewhere.payload t hdiffers⟩)
    · exact .inr (.inr ⟨cause, h, Somewhere.payload t hclashes⟩)

theorem Meets.eq_of_self {u u' : Value} (h : Meets a b u u') (ha : a.Distinct) (heq : a = b) :
    u = u' := by
  induction h with
  | here => exact heq
  | @field _ _ xs ys x v w _ _ _ left right _ ih =>
    obtain ⟨-, rfl⟩ : _ ∧ xs = ys := by simpa only [record.injEq] using heq
    obtain ⟨hnames, hdistinct⟩ := distinct_record.mp ha
    have hv := (field?_eq_some_iff hnames).mpr left
    rw [(field?_eq_some_iff hnames).mpr right] at hv
    cases hv
    exact ih (hdistinct _ left) rfl
  | payload t _ ih =>
    cases heq
    exact ih (distinct_variant.mp ha) rfl

/-- Nothing in a value differs from itself. -/
theorem not_differs_self (ha : a.Distinct) : ¬ a.Differs a := by
  rintro ⟨u, u', hmeets, hdiffers⟩
  obtain rfl := hmeets.eq_of_self ha rfl
  cases hdiffers with
  | int h | bool h | str h | tags h => exact h rfl
  | names h => exact h (.refl _)

/-- What parts meet decides the answer, but for the text of a fault, unless some differ outright and
others cannot be compared. -/
theorem toOption_equals_eq {a' b' : Value} (hequal : a'.equals b' = .ok true ↔ a.equals b = .ok true)
    (hdiffers : Differs a' b' → Differs a b) (hclashes : Clashes a' b' → Clashes a b)
    (h : ¬ (Differs a b ∧ Clashes a b)) :
    (a'.equals b').toOption = (a.equals b).toOption := by
  rcases (compared a b).unequal with htrue | ⟨hfalse, hd⟩ | ⟨cause, herror, hcl⟩
  · rw [htrue, hequal.mpr htrue]
  · rcases (compared a' b').unequal with htrue' | ⟨hfalse', -⟩ | ⟨cause', -, hcl'⟩
    · rw [htrue', hequal.mp htrue']
    · rw [hfalse, hfalse']
    · exact absurd ⟨hd, hclashes hcl'⟩ h
  · rcases (compared a' b').unequal with htrue' | ⟨-, hd'⟩ | ⟨cause', herror', -⟩
    · rw [htrue', hequal.mp htrue']
    · exact absurd ⟨hdiffers hd', hcl⟩ h
    · rw [herror, herror']
      rfl

/-! ## Orders that bring an answer about -/

theorem Meets.distinct {u u' : Value} (h : Meets a b u u') (ha : a.Distinct) : u.Distinct := by
  induction h with
  | here => exact ha
  | field _ left _ _ ih => exact ih ((distinct_record.mp ha).2 _ left)
  | payload _ _ ih => exact ih (distinct_variant.mp ha)

/-- The parts that meet decide the answer if their fields come first. -/
theorem Meets.decides {u u' : Value} (h : Meets a b u u') (hb : b.Distinct)
    (hu : ∃ w, u.Reordered w ∧ w.equals u' = answer) (hunequal : answer ≠ .ok true) :
    ∃ a', a.Reordered a' ∧ a'.equals b = answer := by
  induction h with
  | here => exact hu
  | @field s₁ s₂ xs ys x v w _ _ lengths left right _ ih =>
    obtain ⟨hnames, hdistinct⟩ := distinct_record.mp hb
    obtain ⟨v', hv, hanswer⟩ := ih (hdistinct _ right) hu
    obtain ⟨rest, hfirst⟩ : ∃ rest, (record s₁ xs).Reordered (record s₁ ((x, v') :: rest)) :=
      Reordered.field_first left hv
    refine ⟨_, hfirst, ?_⟩
    have hfound : field? x ys = some w := (field?_eq_some_iff hnames).mpr right
    rw [equals, if_pos (hfirst.length_eq ▸ lengths),
      equalsFields_cons_decided hfound (by rwa [hanswer]), hanswer]
  | payload t _ ih =>
    obtain ⟨v', hv, hanswer⟩ := ih (distinct_variant.mp hb) hu
    exact ⟨_, .variant t hv, by rw [equals, if_pos rfl, hanswer]⟩

theorem DiffersOutright.equals (h : DiffersOutright a b) (ha : a.Distinct) :
    ∃ a', a.Reordered a' ∧ a'.equals b = .ok false := by
  cases h with
  | int h => exact ⟨_, .refl _, by simp [Value.equals, h]⟩
  | bool h => exact ⟨_, .refl _, by simp [Value.equals, h]⟩
  | str h => exact ⟨_, .refl _, by simp [Value.equals, h]⟩
  | tags h v w => exact ⟨_, .refl _, by rw [Value.equals, if_neg h]⟩
  | @names s₁ s₂ xs ys h =>
    by_cases hlengths : xs.length = ys.length
    · obtain ⟨f, hf, hnone⟩ : ∃ f ∈ xs, field? f.1 ys = none := by
        -- Otherwise all names are found, and there are no others.
        by_contra hall
        have hnames := (distinct_record.mp ha).1
        have hsub : xs.map (·.1) ⊆ ys.map (·.1) := fun x hx => by
          obtain ⟨f, hf, rfl⟩ := List.mem_map.mp hx
          refine field?_isSome.mp (Option.ne_none_iff_isSome.mp fun hnone => ?_)
          exact hall ⟨f, hf, hnone⟩
        refine h ((List.subperm_of_subset hnames hsub).perm_of_length_le ?_)
        simp only [List.length_map, hlengths, Nat.le_refl]
      obtain ⟨rest, hfirst⟩ : ∃ rest, (record s₁ xs).Reordered (record s₁ ((f.1, f.2) :: rest)) :=
        Reordered.field_first hf (.refl f.2)
      refine ⟨_, hfirst, ?_⟩
      rw [Value.equals, if_pos (hfirst.length_eq ▸ hlengths), equalsFields_cons_none hnone]
    · exact ⟨_, .refl _, by rw [Value.equals, if_neg hlengths]⟩

theorem Differs.equals (h : Differs a b) (ha : a.Distinct) (hb : b.Distinct) :
    ∃ a', a.Reordered a' ∧ a'.equals b = .ok false := by
  obtain ⟨u, u', hmeets, hdiffers⟩ := h
  exact hmeets.decides hb (hdiffers.equals (hmeets.distinct ha)) nofun

theorem Clashes.equals (h : Clashes a b) (hb : b.Distinct) :
    ∃ a' cause, a.Reordered a' ∧ a'.equals b = .error cause := by
  obtain ⟨u, u', hmeets, hclash⟩ := h
  obtain ⟨cause, herror⟩ := hclash.equals
  obtain ⟨a', ha', hanswer⟩ := hmeets.decides hb ⟨u, .refl u, herror⟩ nofun
  exact ⟨a', cause, ha', hanswer⟩

end Value

/-- **Structural equality decides whether values are the same data.**  Values whose records have
distinct field names are equal just if neither contains a function or a capability and they are the
same up to the order of fields.  So data is what is equal to itself, and equality is symmetric and
transitive. -/
theorem equals_same_data {a b c : Value} (ha : a.Distinct) (hb : b.Distinct) :
    (a.equals b = .ok true ↔ a.IsData ∧ b.IsData ∧ a.Reordered b) ∧
    (a.equals a = .ok true ↔ a.IsData) ∧
    (a.equals b = .ok true → b.equals a = .ok true) ∧
    (a.equals b = .ok true → b.equals c = .ok true → a.equals c = .ok true) := by
  refine ⟨?_, ?_, Value.equal_symm ha hb, Value.equal_trans ha hb⟩
  · rw [Value.equals_eq_true_iff ha]
    constructor
    · rintro ⟨hdata, h⟩
      exact ⟨hdata, h.isData hdata, h⟩
    · rintro ⟨hdata, -, h⟩
      exact ⟨hdata, h⟩
  · constructor
    · intro h
      exact ((Value.equals_eq_true_iff ha).mp h).1
    · exact Value.equals_self ha

/-- A record in a variant, with its fields in three orders. -/
theorem reordered_record_same_data :
    let r (fields : List (Name × Value)) : Value := .variant ⟨1⟩ (.record ⟨0⟩ fields)
    let a : Value := r [(⟨2⟩, .int 1), (⟨3⟩, .str "s"), (⟨4⟩, .unit)]
    let b : Value := r [(⟨4⟩, .unit), (⟨2⟩, .int 1), (⟨3⟩, .str "s")]
    let c : Value := r [(⟨3⟩, .str "s"), (⟨4⟩, .unit), (⟨2⟩, .int 1)]
    a.Distinct ∧ b.Distinct ∧ a.IsData ∧ a.Reordered b ∧ b.equals a = .ok true ∧
      a.equals c = .ok true := by
  intro r a b c
  have ha : a.Distinct := by simp [a, r]
  have hb : b.Distinct := by simp [b, r]
  have hab : a.equals b = .ok true := rfl
  have hbc : b.equals c = .ok true := rfl
  obtain ⟨hsame, -, hsymm, htrans⟩ := @equals_same_data a b c ha hb
  obtain ⟨hdata, -, hreordered⟩ := hsame.mp hab
  exact ⟨ha, hb, hdata, hreordered, hsymm hab, htrans hab hbc⟩

/-- **What the order of fields decides.**  Between values whose records have distinct field names,
to find values equal depends neither on the order of their fields nor on that of the operands, and
the order of fields of the right operand counts for nothing.  Whether another comparison gives an
answer depends on the order of the left operand's fields if and only if some parts that meet differ
outright and others cannot be compared; then each of the two is what some order leads to. -/
theorem equals_reordered {a b a' b' : Value} (ha : a.Distinct) (hb : b.Distinct)
    (ha' : a.Reordered a') (hb' : b.Reordered b') :
    (a'.equals b' = .ok true ↔ a.equals b = .ok true) ∧
    (b.equals a = .ok true ↔ a.equals b = .ok true) ∧
    a.equals b' = a.equals b ∧
    (¬ (a.Differs b ∧ a.Clashes b) →
      (a'.equals b').toOption = (a.equals b).toOption ∧
      (b.equals a).toOption = (a.equals b).toOption) ∧
    (a.Differs b ∧ a.Clashes b → ∀ answer : Option Bool, answer ≠ some true →
      ∃ a'', a.Reordered a'' ∧ (a''.equals b).toOption = answer) := by
  have hequal : a'.equals b' = .ok true ↔ a.equals b = .ok true := by
    constructor
    · exact Value.equal_of_reordered (ha'.distinct ha) ha'.symm hb'.symm
    · exact Value.equal_of_reordered ha ha' hb'
  have hswapped : b.equals a = .ok true ↔ a.equals b = .ok true := by
    constructor
    · exact Value.equal_symm hb ha
    · exact Value.equal_symm ha hb
  refine ⟨hequal, hswapped, Value.equals_reordered_right hb hb', fun h => ⟨?_, ?_⟩, ?_⟩
  · exact Value.toOption_equals_eq hequal
      (.reordered Value.DiffersOutright.reordered · ha'.symm hb'.symm)
      (.reordered Value.Incomparable.reordered · ha'.symm hb'.symm) h
  · exact Value.toOption_equals_eq hswapped (.symm Value.DiffersOutright.symm)
      (.symm Value.Incomparable.symm) h
  · rintro ⟨hdiffers, hclashes⟩ answer hanswer
    match answer with
    | some true => exact absurd rfl hanswer
    | some false =>
      obtain ⟨a'', hreordered, hfalse⟩ := hdiffers.equals ha hb
      exact ⟨a'', hreordered, by rw [hfalse]; rfl⟩
    | none =>
      obtain ⟨a'', cause, hreordered, herror⟩ := hclashes.equals hb
      exact ⟨a'', hreordered, by rw [herror]; rfl⟩

/-- Two records differ in one field and have functions in the other.  With the functions first they
cannot be compared, unless they are swapped. -/
theorem functions_first_fault :
    let f : Value := .closure (.lambda ⟨0⟩ ⟨none, []⟩ (.literal none .unit)) .empty
    let a : Value := .record ⟨0⟩ [(⟨1⟩, .int 1), (⟨2⟩, f)]
    let a' : Value := .record ⟨0⟩ [(⟨2⟩, f), (⟨1⟩, .int 1)]
    let b : Value := .record ⟨0⟩ [(⟨1⟩, .int 2), (⟨2⟩, f)]
    a.Distinct ∧ b.Distinct ∧ a.Reordered a' ∧ a.equals b = .ok false ∧
      a'.equals b = .error (.notComparable "Function") ∧ b.equals a' = .ok false := by
  intro f a a' b
  refine ⟨by simp [a, f], by simp [b, f], ?_, rfl, rfl, rfl⟩
  exact .record _ _ (.of_forall fun g _ => ⟨rfl, .refl g.2⟩) (.swap _ _ [])

/-- For these records both a fault and the answer that they differ come about.  Where nothing
differs, a fault is what any order leads to. -/
theorem functions_either_way :
    let f : Value := .closure (.lambda ⟨0⟩ ⟨none, []⟩ (.literal none .unit)) .empty
    let a : Value := .record ⟨0⟩ [(⟨1⟩, .int 1), (⟨2⟩, f)]
    let a' : Value := .record ⟨0⟩ [(⟨2⟩, f), (⟨1⟩, .int 1)]
    let b : Value := .record ⟨0⟩ [(⟨1⟩, .int 2), (⟨2⟩, f)]
    a.Distinct ∧ b.Distinct ∧ a.Reordered a' ∧ a.Differs b ∧ a.Clashes b ∧
      (∃ a'', a.Reordered a'' ∧ (a''.equals b).toOption = none) ∧
      (∃ a'', a.Reordered a'' ∧ (a''.equals b).toOption = some false) ∧
      ¬ a.Differs a ∧ (a'.equals a).toOption = none := by
  intro f a a' b
  have ha : a.Distinct := by simp [a, f]
  have hb : b.Distinct := by simp [b, f]
  have ha' : a.Reordered a' :=
    .record _ _ (.of_forall fun g _ => ⟨rfl, .refl g.2⟩) (.swap _ _ [])
  have hdiffers : a.Differs b :=
    ⟨.int 1, .int 2, .field rfl (.head _) (.head _) (.here _ _), .int (by decide)⟩
  have hclashes : a.Clashes b :=
    ⟨f, f, .field rfl (.tail _ (.head _)) (.tail _ (.head _)) (.here _ _), .inl rfl⟩
  have hboth := (equals_reordered ha hb (.refl a) (.refl b)).2.2.2.2 ⟨hdiffers, hclashes⟩
  have hsame : ¬ a.Differs a := Value.not_differs_self ha
  have hfault := ((equals_reordered ha ha ha' (.refl a)).2.2.2.1 fun h => hsame h.1).1
  exact ⟨ha, hb, ha', hdiffers, hclashes, hboth none (by decide), hboth (some false) (by decide),
    hsame, hfault⟩

end CapLang
