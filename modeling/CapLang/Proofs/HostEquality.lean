import CapLang.Proofs.Equality
import CapLang.Proofs.Positions
import CapLang.Value.Identity

/-!
# What hosts take to be equal

A host compares values by two functions in turn, with a short cut for records that are one and the
same.  None of this shows in the answer: two values are the same for a host just if they look alike
at every position (`Value.sameLed_iff`), where a scalar shows what it is, a function or a capability
its identity, a variant its tag, and a record nothing but that it is one.  Which fields a record
has is seen one position further in.

To look alike at every position is an equivalence.  It agrees with structural equality where that
has an answer (`Value.Compared.looksLike_iff`), and it is what a comparison comes to whichever parts
it recognizes as one and the same (`Value.sameBy_iff`), so this is all `host_equality` needs.
-/
namespace CapLang

/-! ## Identity -/

/-- What the identity of a piece of code depends on. -/
def Code.identity : Code → CodeId × Option Nat
  | .lambda id _ _ => (id, none)
  | .member id _ i => (id, some i)

theorem Code.same_iff {c d : Code} : c.same d = true ↔ c.identity = d.identity := by
  cases c <;> cases d <;> simp [Code.same, Code.identity]

/-- What the identity of an environment depends on: its innermost frame. -/
def Env.identity : Env → Option Stamp
  | .empty => none
  | .frame stamp _ _ => some stamp

theorem Env.same_iff {e f : Env} : e.same f = true ↔ e.identity = f.identity := by
  cases e <;> cases f <;> simp [Env.same, Env.identity]

theorem Handle.same_iff {h k : Handle} : h.same k = true ↔ h.object = k.object := beq_iff_eq

namespace Value

variable {a b c v w : Value} {xs ys : List (Name × Value)} {heap : Stamp → List (Name × Value)}

/-- **What the heap holds.**  Records with one stamp are one and the same: each record in the value
has the fields that the heap holds under its stamp. -/
def StoredIn (heap : Stamp → List (Name × Value)) (v : Value) : Prop :=
  ∀ stamp fields, v.Contains (.record stamp fields) → fields = heap stamp

@[simp] theorem storedIn_record {stamp : Stamp} {fields : List (Name × Value)} :
    (record stamp fields).StoredIn heap ↔
      fields = heap stamp ∧ ∀ f ∈ fields, f.2.StoredIn heap := by
  unfold StoredIn
  simp only [contains_record]
  constructor
  · exact fun h => ⟨h stamp fields (.inl rfl), fun f hf s fs hfs => h s fs (.inr ⟨f, hf, hfs⟩)⟩
  · rintro ⟨hheld, hfields⟩ s fs (heq | ⟨f, hf, hfs⟩)
    · cases heq
      exact hheld
    · exact hfields f hf s fs hfs

@[simp] theorem storedIn_variant {tag : Name} {v : Value} :
    (variant tag v).StoredIn heap ↔ v.StoredIn heap := by
  unfold StoredIn
  simp only [contains_variant, reduceCtorEq, false_or]

@[simp] theorem storedIn_closure {code : Code} {env : Env} : (closure code env).StoredIn heap := by
  intro s fields h
  cases h

/-! ## Looking alike -/

/-- What a value shows of itself, whatever it contains. -/
inductive Look
  | int (n : Int64)
  | bool (b : Bool)
  | str (s : String)
  | unit
  | closure (code : CodeId × Option Nat) (env : Option Stamp)
  | record
  | variant (tag : Name)
  | capability (object : ObjectId)

/-- What is seen of the value from outside. -/
def look : Value → Look
  | int n => .int n
  | bool b => .bool b
  | str s => .str s
  | unit => .unit
  | closure code env => .closure code.identity env.identity
  | record .. => .record
  | variant tag _ => .variant tag
  | capability h => .capability h.object

/-- **Two values look alike at every position.** -/
def LooksLike (a b : Value) : Prop :=
  ∀ position, (a.at? position).map look = (b.at? position).map look

@[refl]
theorem LooksLike.refl (a : Value) : a.LooksLike a := fun _ => rfl

theorem LooksLike.symm (h : a.LooksLike b) : b.LooksLike a := fun position => (h position).symm

theorem LooksLike.trans (h : a.LooksLike b) (h' : b.LooksLike c) : a.LooksLike c :=
  fun position => (h position).trans (h' position)

theorem LooksLike.look_eq (h : a.LooksLike b) : a.look = b.look := Option.some.inj (h [])

/-- Values look alike if they do from outside and so does what each step leads to. -/
theorem looksLike_iff :
    a.LooksLike b ↔
      a.look = b.look ∧ ∀ step, Option.Rel LooksLike (a.inside? step) (b.inside? step) := by
  constructor
  · intro h
    refine ⟨h.look_eq, fun step => ?_⟩
    have hinside := fun rest => h (step :: rest)
    simp only [at?] at hinside
    generalize a.inside? step = found₁ at hinside ⊢
    generalize b.inside? step = found₂ at hinside ⊢
    match found₁, found₂ with
    | none, none => exact .none
    | some v, some w => exact .some hinside
    | some v, none => cases hinside []
    | none, some w => cases hinside []
  · rintro ⟨hlook, hinside⟩ position
    cases position with
    | nil => exact congrArg some hlook
    | cons step rest =>
      have hstep := hinside step
      simp only [at?]
      generalize a.inside? step = found₁ at hstep ⊢
      generalize b.inside? step = found₂ at hstep ⊢
      cases hstep with
      | none => rfl
      | some hvw => exact hvw rest

theorem looksLike_record_iff {s₁ s₂ : Stamp} :
    (record s₁ xs).LooksLike (record s₂ ys) ↔
      ∀ x, Option.Rel LooksLike (field? x xs) (field? x ys) := by
  rw [looksLike_iff]
  constructor
  · exact fun h x => h.2 (.field x)
  · intro h
    refine ⟨rfl, fun step => ?_⟩
    cases step with
    | payload => exact .none
    | field x => exact h x

theorem looksLike_variant_iff {t u : Name} :
    (variant t v).LooksLike (variant u w) ↔ t = u ∧ v.LooksLike w := by
  rw [looksLike_iff]
  constructor
  · rintro ⟨hlook, hinside⟩
    cases hinside .payload with
    | some hvw => exact ⟨Look.variant.inj hlook, hvw⟩
  · rintro ⟨rfl, hvw⟩
    refine ⟨rfl, fun step => ?_⟩
    cases step with
    | payload => exact .some hvw
    | field x => exact .none

/-- Neither a record nor a variant: a value that contains nothing. -/
def isAtom : Value → Bool
  | record .. | variant .. => false
  | _ => true

theorem looksLike_iff_of_isAtom (ha : a.isAtom) : a.LooksLike b ↔ a.look = b.look := by
  rw [looksLike_iff, and_iff_left_iff_imp]
  intro hlook step
  cases a with
  | record | variant => cases ha
  | _ => cases b <;> first | exact .none | cases hlook

theorem typeName_eq_of_look (h : a.look = b.look) : a.typeName = b.typeName := by
  cases a <;> cases b <;> first | rfl | cases h

/-! ## The comparison of hosts -/

theorem sameFields_iff : sameFields ys xs = true ↔
    ∀ f ∈ xs, ∃ w, field? f.1 ys = some w ∧ sameLed true f.2 w = true := by
  induction xs with
  | nil => simp [sameFields]
  | cons f fs ih =>
    rw [sameFields, Bool.and_eq_true, ih, List.forall_mem_cons]
    cases field? f.1 ys <;> simp

theorem find?_fieldTests (x : Name) : (fieldTests xs).find? (·.1 == x) =
    (field? x xs).map fun v => (x, sameLed false v) := by
  induction xs with
  | nil => rfl
  | cons f fs ih =>
    unfold field? at ih ⊢
    rw [fieldTests, List.find?_cons, List.find?_cons]
    by_cases hx : f.1 = x
    · simp only [hx, beq_self_eq_true, Option.map_some]
    · simp only [beq_eq_false_iff_ne.mpr hx, ih]

/-- **Records that are not one and the same are compared name by name**, and the lead changes
sides. -/
theorem sameLed_record_iff {s₁ s₂ : Stamp} (hs : s₁ ≠ s₂) (hxs : (xs.map (·.1)).Nodup)
    (hys : (ys.map (·.1)).Nodup) (led : Bool) :
    sameLed led (record s₁ xs) (record s₂ ys) = true ↔
      ∀ x, Option.Rel (fun v w => sameLed (!led) v w = true) (field? x xs) (field? x ys) := by
  cases led with
  | false =>
    rw [← partners_iff hxs hys]
    simp [sameLed, hs, sameFields_iff]
  | true =>
    have hswap (x : Name) := rel_swap (R := fun v w => sameLed (!true) v w = true)
      (field? x xs) (field? x ys)
    rw [forall_congr' hswap, ← partners_iff hys hxs]
    simp only [sameLed, beq_eq_false_iff_ne.mpr hs, Bool.false_or, Bool.and_eq_true, beq_iff_eq,
      if_true, List.all_eq_true, find?_fieldTests, eq_comm (a := xs.length)]
    refine and_congr_right fun _ => forall₂_congr fun g _ => ?_
    cases field? g.1 xs <;> simp [flip]

theorem sameLed_iff_of_isAtom (ha : a.isAtom) (led : Bool) :
    sameLed led a b = true ↔ a.look = b.look := by
  cases a with
  | record | variant => cases ha
  | _ => cases b <;> simp [sameLed, look, Code.same_iff, Env.same_iff, Handle.same_iff]

/-- **Whichever side leads, a host takes two values to be the same just if they look alike.** -/
theorem sameLed_iff (ha : a.Distinct) (hb : b.Distinct) (hsa : a.StoredIn heap)
    (hsb : b.StoredIn heap) (led : Bool) : sameLed led a b = true ↔ a.LooksLike b := by
  induction a using Value.induction generalizing b led with
  | record s₁ xs ih =>
    cases b with
    | record s₂ ys =>
      obtain ⟨hxs, hdxs⟩ := distinct_record.mp ha
      obtain ⟨hys, hdys⟩ := distinct_record.mp hb
      rw [storedIn_record] at hsa hsb
      by_cases hs : s₁ = s₂
      · obtain rfl := hs
        obtain rfl : xs = ys := hsa.1.trans hsb.1.symm
        exact iff_of_true (by simp [sameLed]) (.refl _)
      · rw [sameLed_record_iff hs hxs hys, looksLike_record_iff]
        refine forall_congr' fun x => rel_congr fun v hv w hw => ?_
        have hvmem := mem_of_field? hv
        have hwmem := mem_of_field? hw
        exact ih _ hvmem (hdxs _ hvmem) (hdys _ hwmem) (hsa.2 _ hvmem) (hsb.2 _ hwmem) _
    | _ => exact iff_of_false (by simp [sameLed]) fun h => nomatch h.look_eq
  | variant t v ih =>
    cases b with
    | variant u w =>
      rw [looksLike_variant_iff, sameLed, Bool.and_eq_true, beq_iff_eq]
      exact and_congr_right fun _ => ih (distinct_variant.mp ha) (distinct_variant.mp hb)
        (storedIn_variant.mp hsa) (storedIn_variant.mp hsb) _
    | _ => exact iff_of_false (by simp [sameLed]) fun h => nomatch h.look_eq
  | _ => exact (sameLed_iff_of_isAtom rfl led).trans (looksLike_iff_of_isAtom rfl).symm

/-! ## Short cuts -/

/-- **What a comparison comes to that recognizes some values as one and the same.**  Such values are
taken to be equal without a look at what they contain, and all others by what they contain. -/
inductive SameBy (shared : Value → Value → Prop) : Value → Value → Prop
  | int (n : Int64) : SameBy shared (.int n) (.int n)
  | bool (b : Bool) : SameBy shared (.bool b) (.bool b)
  | str (s : String) : SameBy shared (.str s) (.str s)
  | unit : SameBy shared .unit .unit
  | closure {c d : Code} {e f : Env} (code : c.same d) (env : e.same f) :
      SameBy shared (.closure c e) (.closure d f)
  | record (s₁ s₂ : Stamp) {xs ys : List (Name × Value)} (lengths : xs.length = ys.length)
      (partner : Name → Value) (found : ∀ f ∈ xs, field? f.1 ys = some (partner f.1))
      (same : ∀ f ∈ xs, SameBy shared f.2 (partner f.1)) :
      SameBy shared (.record s₁ xs) (.record s₂ ys)
  | variant (t : Name) {v w : Value} (payload : SameBy shared v w) :
      SameBy shared (.variant t v) (.variant t w)
  | capability {h k : Handle} (object : h.same k) :
      SameBy shared (.capability h) (.capability k)
  | recognized {v w : Value} (one : shared v w) : SameBy shared v w

variable {shared : Value → Value → Prop}

theorem SameBy.looksLike (hshared : ∀ v w, shared v w → v = w) (h : SameBy shared a b)
    (ha : a.Distinct) (hb : b.Distinct) : a.LooksLike b := by
  induction h with
  | recognized one =>
    obtain rfl := hshared _ _ one
    exact .refl _
  | closure code env =>
    refine (looksLike_iff_of_isAtom rfl).mpr ?_
    rw [look, look, Code.same_iff.mp code, Env.same_iff.mp env]
  | capability object =>
    exact (looksLike_iff_of_isAtom rfl).mpr (congrArg Look.capability (Handle.same_iff.mp object))
  | @record s₁ s₂ xs ys lengths partner found _ ih =>
    obtain ⟨hxs, hdxs⟩ := distinct_record.mp ha
    obtain ⟨hys, hdys⟩ := distinct_record.mp hb
    refine looksLike_record_iff.mpr ((partners_iff hxs hys).mp ⟨lengths, fun f hf => ?_⟩)
    have hpartner := mem_of_field? (found f hf)
    exact ⟨_, found f hf, ih f hf (hdxs f hf) (hdys _ hpartner)⟩
  | variant t _ ih =>
    exact looksLike_variant_iff.mpr ⟨rfl, ih (distinct_variant.mp ha) (distinct_variant.mp hb)⟩
  | _ => exact .refl _

theorem LooksLike.sameBy (h : a.LooksLike b) (ha : a.Distinct) (hb : b.Distinct) :
    SameBy shared a b := by
  induction a using Value.induction generalizing b with
  | record s₁ xs ih =>
    cases b with
    | record s₂ ys =>
      obtain ⟨hxs, hdxs⟩ := distinct_record.mp ha
      obtain ⟨hys, hdys⟩ := distinct_record.mp hb
      obtain ⟨lengths, hpartner⟩ := (partners_iff hxs hys).mpr (looksLike_record_iff.mp h)
      refine .record s₁ s₂ lengths (fun x => (field? x ys).getD .unit) (fun f hf => ?_)
        fun f hf => ?_
      · obtain ⟨w, hw, -⟩ := hpartner f hf
        rw [hw, Option.getD_some]
      · obtain ⟨w, hw, hlike⟩ := hpartner f hf
        rw [hw, Option.getD_some]
        exact ih f hf hlike (hdxs f hf) (hdys _ (mem_of_field? hw))
    | _ => cases h.look_eq
  | variant t v ih =>
    cases b with
    | variant u w =>
      obtain ⟨rfl, hvw⟩ := looksLike_variant_iff.mp h
      exact .variant t (ih hvw (distinct_variant.mp ha) (distinct_variant.mp hb))
    | _ => cases h.look_eq
  | closure c e =>
    cases b with
    | closure d f =>
      obtain ⟨hcode, henv⟩ := Look.closure.inj h.look_eq
      exact .closure (Code.same_iff.mpr hcode) (Env.same_iff.mpr henv)
    | _ => cases h.look_eq
  | capability handle =>
    cases b with
    | capability k => exact .capability (Handle.same_iff.mpr (Look.capability.inj h.look_eq))
    | _ => cases h.look_eq
  | _ =>
    cases b <;> cases h.look_eq
    constructor

/-- **Short cuts do not change what a comparison comes to.** -/
theorem sameBy_iff (hshared : ∀ v w, shared v w → v = w) (ha : a.Distinct) (hb : b.Distinct) :
    SameBy shared a b ↔ a.LooksLike b :=
  ⟨fun h => h.looksLike hshared ha hb, fun h => h.sameBy ha hb⟩

/-! ## Agreement with structural equality -/

/-- **Where structural equality has an answer, it is whether the values look alike.** -/
theorem Compared.looksLike_iff {answer : Except Cause Bool} (hc : Compared a b answer)
    (ha : a.Distinct) (hb : b.Distinct) {equal : Bool} (h : answer = .ok equal) :
    equal = true ↔ a.LooksLike b := by
  induction hc with
  | incomparable => cases h
  | differs hdiffers =>
    obtain rfl := Except.ok.inj h
    refine iff_of_false Bool.false_ne_true fun hlike => ?_
    cases hdiffers with
    | int hne => exact hne (Look.int.inj hlike.look_eq)
    | bool hne => exact hne (Look.bool.inj hlike.look_eq)
    | str hne => exact hne (Look.str.inj hlike.look_eq)
    | tags hne => exact hne (Look.variant.inj hlike.look_eq)
    | names hne =>
      exact hne (names_perm_of_rel (distinct_record.mp ha).1 (distinct_record.mp hb).1
        (looksLike_record_iff.mp hlike))
  | same => exact iff_of_true (Except.ok.inj h).symm (.refl _)
  | @fields s₁ s₂ xs ys lengths partner found _ ih =>
    obtain ⟨hxs, hdxs⟩ := distinct_record.mp ha
    obtain ⟨hys, hdys⟩ := distinct_record.mp hb
    obtain rfl := Except.ok.inj h
    refine iff_of_true rfl (looksLike_record_iff.mpr ?_)
    refine (partners_iff hxs hys).mp ⟨lengths, fun f hf => ?_⟩
    have hpartner := mem_of_field? (found f hf)
    exact ⟨_, found f hf, (ih f hf (hdxs f hf) (hdys _ hpartner) rfl).mp rfl⟩
  | @field s₁ s₂ xs ys lengths x v w mem found answer _ unequal ih =>
    obtain ⟨hxs, hdxs⟩ := distinct_record.mp ha
    obtain ⟨hys, hdys⟩ := distinct_record.mp hb
    obtain rfl : equal = false := by
      cases equal with
      | false => rfl
      | true => exact absurd h unequal
    -- The values differ where the deciding fields do.
    refine iff_of_false Bool.false_ne_true fun hlike => ?_
    have hfield := looksLike_record_iff.mp hlike x
    rw [(field?_eq_some_iff hxs).mpr mem, found, Option.rel_some_some] at hfield
    exact Bool.false_ne_true
      ((ih (hdxs _ mem) (hdys _ (mem_of_field? found)) h).mpr hfield)
  | payload t _ ih =>
    rw [ih (distinct_variant.mp ha) (distinct_variant.mp hb) h, looksLike_variant_iff]
    exact (and_iff_right rfl).symm

end Value

/-- **Equality for hosts.**  Among values whose records have distinct field names it is an
equivalence, and it is what structural equality answers wherever that has an answer.  Recognizing
parts as one and the same makes no difference to it, whether records, texts or payloads, and
whichever of them.  Values of different kinds, which structural equality refuses to compare, are not
equal. -/
theorem host_equality {heap : Stamp → List (Name × Value)} {a b c : Value} (ha : a.Distinct)
    (hb : b.Distinct) (hc : c.Distinct) (hsa : a.StoredIn heap) (hsb : b.StoredIn heap)
    (hsc : c.StoredIn heap) :
    a.same a = true ∧
    (a.same b = true → b.same a = true) ∧
    (a.same b = true → b.same c = true → a.same c = true) ∧
    (∀ equal, a.equals b = .ok equal → a.same b = equal) ∧
    (∀ shared : Value → Value → Prop, (∀ v w, shared v w → v = w) →
      (a.same b = true ↔ Value.SameBy shared a b)) ∧
    (a.typeName ≠ b.typeName → a.same b = false) := by
  have hab : a.same b = true ↔ a.LooksLike b := Value.sameLed_iff ha hb hsa hsb false
  have hba : b.same a = true ↔ b.LooksLike a := Value.sameLed_iff hb ha hsb hsa false
  have hbc : b.same c = true ↔ b.LooksLike c := Value.sameLed_iff hb hc hsb hsc false
  have hac : a.same c = true ↔ a.LooksLike c := Value.sameLed_iff ha hc hsa hsc false
  refine ⟨?_, ?_, ?_, fun equal h => ?_, fun shared hshared => ?_, fun h => ?_⟩
  · exact (Value.sameLed_iff ha ha hsa hsa false).mpr (.refl a)
  · rw [hab, hba]
    exact .symm
  · rw [hab, hbc, hac]
    exact .trans
  · rw [Bool.eq_iff_iff, hab]
    exact ((Value.compared a b).looksLike_iff ha hb h).symm
  · rw [hab, Value.sameBy_iff hshared ha hb]
  · rw [← Bool.not_eq_true, hab]
    exact fun hlike => h (Value.typeName_eq_of_look hlike.look_eq)

/-- Three records that hold a function, two of them by sharing a record and one in a record of its
own.  Structural equality has no answer for any two of them. -/
theorem shared_record_same :
    let f : Value := .closure (.lambda ⟨0⟩ ⟨none, []⟩ (.literal none .unit)) (.frame ⟨9⟩ [] .empty)
    let shared : Value := .record ⟨0⟩ [(⟨1⟩, f)]
    let copy : Value := .record ⟨1⟩ [(⟨1⟩, f)]
    let a : Value := .record ⟨2⟩ [(⟨2⟩, shared), (⟨3⟩, .variant ⟨4⟩ shared)]
    let b : Value := .record ⟨3⟩ [(⟨3⟩, .variant ⟨4⟩ shared), (⟨2⟩, shared)]
    let c : Value := .record ⟨4⟩ [(⟨2⟩, copy), (⟨3⟩, .variant ⟨4⟩ shared)]
    a.Distinct ∧ b.Distinct ∧ c.Distinct ∧
      (∃ heap, a.StoredIn heap ∧ b.StoredIn heap ∧ c.StoredIn heap) ∧
      b.same a = true ∧ a.same c = true ∧ a.equals c = .error (.notComparable "Function") ∧
      Value.SameBy (fun _ _ => False) a b := by
  intro f shared copy a b c
  have ha : a.Distinct := by simp [a, shared, f]
  have hb : b.Distinct := by simp [b, shared, f]
  have hc : c.Distinct := by simp [c, copy, shared, f]
  let heap : Stamp → List (Name × Value)
    | ⟨2⟩ => [(⟨2⟩, shared), (⟨3⟩, .variant ⟨4⟩ shared)]
    | ⟨3⟩ => [(⟨3⟩, .variant ⟨4⟩ shared), (⟨2⟩, shared)]
    | ⟨4⟩ => [(⟨2⟩, copy), (⟨3⟩, .variant ⟨4⟩ shared)]
    | _ => [(⟨1⟩, f)]
  have hsa : a.StoredIn heap := by simp [a, shared, f, heap]
  have hsb : b.StoredIn heap := by simp [b, shared, f, heap]
  have hsc : c.StoredIn heap := by simp [c, copy, shared, f, heap]
  have hab : a.same b = true := by decide
  obtain ⟨-, hsymm, htrans, -, hshort, -⟩ := host_equality ha hb hc hsa hsb hsc
  exact ⟨ha, hb, hc, ⟨heap, hsa, hsb, hsc⟩, hsymm hab, htrans hab (by decide), rfl,
    (hshort _ nofun).mp hab⟩

end CapLang
