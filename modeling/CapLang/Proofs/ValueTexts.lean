import CapLang.Proofs.Quoting
import CapLang.Proofs.Reordering
import CapLang.Proofs.Unstamped

/-!
# Values that have the same text

Two values without functions and capabilities that have the same text are the same tree, whatever
the strings in them look like.  The parts of a text stand one after the other, so a value is looked
at together with whatever comes after it (`Value.ReadBack`): where a number or a name ends is seen
from the next character, and all other texts end by themselves.  Which kind of value a text shows is
seen from its first two characters (`shownKind`), so values of different kinds need not be compared,
and values of one kind are compared part by part.  Two names of one table are never spelled alike.
-/
namespace CapLang

/-! ## Names that are spelled as words -/

/-- A letter, a digit or an underscore.  Characters beyond the first 128 all pass for letters. -/
def isWordChar (c : Char) : Bool := c.isAlphanum || c == '_' || decide (128 ≤ c.toNat)

/-- Letters, digits and underscores, at least one of them, and nothing else. -/
def IsWord (s : String) : Prop := s ≠ "" ∧ s.toList.all isWordChar

instance (s : String) : Decidable (IsWord s) := inferInstanceAs (Decidable (_ ∧ _))

namespace IsWord

variable {s t : String} {c : Char} {r r' : List Char}

theorem append_ne (h : IsWord s) (hc : ¬ isWordChar c) : s.toList ++ r ≠ c :: r' := by
  obtain ⟨hne, hall⟩ := h
  intro heq
  rcases hs : s.toList with - | ⟨d, ds⟩
  · exact hne (String.toList_eq_nil_iff.mp hs)
  · rw [hs, List.all_cons, Bool.and_eq_true] at hall
    rw [hs, List.cons_append, List.cons.injEq] at heq
    exact hc (heq.1 ▸ hall.1)

theorem append_inj (hs : IsWord s) (ht : IsWord t) (hc : ¬ isWordChar c)
    (h : s.toList ++ c :: r = t.toList ++ c :: r') : s = t ∧ r = r' := by
  obtain ⟨htext, hrest⟩ := append_inj_of_class (List.all_eq_true.mp hs.2)
    (List.all_eq_true.mp ht.2) (startsOutside_cons.mpr hc) (startsOutside_cons.mpr hc) h
  exact ⟨String.toList_inj.mp htext, (List.cons.inj hrest).2⟩

end IsWord

namespace NameTable

variable {names : NameTable} {x y : Name}

/-- What stands for a name of another table is no word. -/
theorem getElem?_of_isWord (h : IsWord (names.resolve x)) :
    names.texts.toList[x.index]? = some (names.resolve x) := by
  have hunknown : ¬ IsWord "<unknown>" := by decide
  rw [Array.getElem?_toList]
  unfold resolve at h ⊢
  rcases hx : names.texts[x.index]? with - | s
  · rw [hx] at h
    exact absurd h hunknown
  · rfl

/-- **Names that are spelled as the same word are the same.** -/
theorem resolve_inj (hdistinct : names.texts.toList.Nodup) (hword : IsWord (names.resolve x))
    (h : names.resolve x = names.resolve y) : x = y := by
  have hx := getElem?_of_isWord hword
  have hy := getElem?_of_isWord (h ▸ hword)
  obtain ⟨hlt, -⟩ := List.getElem?_eq_some_iff.mp hx
  rw [h, ← hy] at hx
  have hindex : x.index = y.index := (List.getElem?_inj hlt hdistinct).mp hx
  cases x
  cases y
  exact congrArg Name.mk hindex

end NameTable

namespace Value

variable {names : NameTable}

/-- The names that a value shows outside its parts: those of its fields, or its tag. -/
def labels : Value → List Name
  | record _ fields => fields.map (·.1)
  | variant tag _ => [tag]
  | _ => []

/-- **Data whose names are words**: the value contains no function and no capability, and its field
names and tags are spelled as words, at any depth. -/
structure Legible (names : NameTable) (v : Value) : Prop where
  data : v.IsData
  words : ∀ u, v.Contains u → ∀ x ∈ u.labels, IsWord (names.resolve x)

theorem legible_of_isScalar {v : Value} (h : v.isScalar) : v.Legible names := by
  have hself {u : Value} (hu : v.Contains u) : u = v := by
    cases hu with
    | refl => rfl
    | field => cases h
    | payload => cases h
  constructor
  · intro u hu
    rw [hself hu]
    cases v <;> first | rfl | cases h
  · intro u hu x hx
    have hnone : v.labels = [] := by cases v <;> first | rfl | cases h
    rw [hself hu, hnone] at hx
    exact absurd hx List.not_mem_nil

theorem legible_record {stamp : Stamp} {fields : List (Name × Value)} :
    (record stamp fields).Legible names ↔
      ∀ f ∈ fields, IsWord (names.resolve f.1) ∧ f.2.Legible names := by
  constructor
  · intro h f hf
    have hdata := isData_record.mp h.data f hf
    refine ⟨h.words _ (.refl _) f.1 (List.mem_map_of_mem hf), hdata, fun u hu => ?_⟩
    exact h.words u (.field hf hu)
  · intro h
    refine ⟨isData_record.mpr fun f hf => (h f hf).2.data, fun u hu x hx => ?_⟩
    rcases contains_record.mp hu with rfl | ⟨f, hf, hu⟩
    · obtain ⟨f, hf, rfl⟩ := List.mem_map.mp hx
      exact (h f hf).1
    · exact (h f hf).2.words u hu x hx

theorem legible_variant {tag : Name} {v : Value} :
    (variant tag v).Legible names ↔ IsWord (names.resolve tag) ∧ v.Legible names := by
  constructor
  · intro h
    refine ⟨h.words _ (.refl _) tag (List.mem_singleton_self tag), isData_variant.mp h.data, ?_⟩
    exact fun u hu => h.words u (.payload tag hu)
  · rintro ⟨hword, h⟩
    refine ⟨isData_variant.mpr h.data, fun u hu x hx => ?_⟩
    rcases contains_variant.mp hu with rfl | hu
    · rwa [List.mem_singleton.mp hx]
    · exact h.words u hu x hx

/-! ## The characters of a value -/

/-- The characters of a value's text. -/
def chars (names : NameTable) (v : Value) : List Char := (v.text names).toList

/-- The characters of fields; `separator` stands before the first of them. -/
def fieldsChars (names : NameTable) (separator : String) (fields : List (Name × Value)) :
    List Char :=
  (fieldsAfter names "" separator fields).toList

theorem fieldsAfter_eq {fields : List (Name × Value)}
    (h : ∀ f ∈ fields, ∀ out, f.2.textAfter names out = out ++ f.2.text names)
    (out separator : String) :
    fieldsAfter names out separator fields = out ++ fieldsAfter names "" separator fields := by
  induction fields generalizing out separator with
  | nil => exact (String.append_empty ..).symm
  | cons f rest ih =>
    rw [List.forall_mem_cons] at h
    rw [fieldsAfter, fieldsAfter, h.1, h.1, ih h.2, ih h.2 (_ ++ _)]
    simp only [String.append_assoc, String.empty_append]

/-- **What is written before a value has no part in its text.** -/
theorem textAfter_eq (v : Value) (out : String) : v.textAfter names out = out ++ v.text names := by
  induction v using Value.induction generalizing out with
  | record stamp fields ih =>
    rw [text, textAfter, textAfter, fieldsAfter_eq ih, fieldsAfter_eq ih (_ ++ _)]
    simp only [String.append_assoc, String.empty_append]
  | variant tag v ih =>
    rw [text, textAfter, textAfter, ih, ih (_ ++ _)]
    simp only [String.append_assoc, String.empty_append]
  | _ => simp only [text, textAfter, String.append_assoc, String.empty_append]

theorem chars_int (n : Int64) : (int n).chars names = (integerText n).toList := by
  rw [chars, text, textAfter, String.empty_append]

theorem chars_bool (b : Bool) : (bool b).chars names = (boolText b).toList := by
  rw [chars, text, textAfter, String.empty_append]

theorem chars_str (s : String) : (str s).chars names = (quoted s).toList := by
  rw [chars, text, textAfter, String.empty_append]

theorem chars_unit : unit.chars names = ['\x7b', '\x7d'] := by
  rw [chars, text, textAfter, String.empty_append]
  rfl

theorem chars_record (stamp : Stamp) (fields : List (Name × Value)) :
    (record stamp fields).chars names =
      '\x7b' :: (fieldsChars names " " fields ++ [' ', '\x7d']) := by
  rw [chars, text, textAfter, fieldsAfter_eq fun f _ => f.2.textAfter_eq]
  simp [fieldsChars]

theorem chars_variant (tag : Name) (v : Value) :
    (variant tag v).chars names =
      '<' :: ((names.resolve tag).toList ++ ' ' :: '=' :: ' ' :: (v.chars names ++ ['>'])) := by
  rw [chars, text, textAfter, textAfter_eq]
  simp [chars]

theorem fieldsChars_cons (separator : String) (x : Name) (v : Value) (rest : List (Name × Value)) :
    fieldsChars names separator ((x, v) :: rest) = separator.toList ++
      ((names.resolve x).toList ++ ' ' :: '=' :: ' ' ::
        (v.chars names ++ fieldsChars names ", " rest)) := by
  rw [fieldsChars, fieldsAfter, fieldsAfter_eq fun f _ => f.2.textAfter_eq, textAfter_eq]
  simp [fieldsChars, chars]

/-! ## The kind of value that a text shows -/

/-- The word for the kind of value that a text shows, by its first two characters. -/
def shownKind : List Char → String
  | '\x7b' :: '\x7d' :: _ => "Unit"
  | '\x7b' :: _ => "Record"
  | '<' :: _ => "Variant"
  | '"' :: _ => "String"
  | 't' :: _ => "Boolean"
  | 'f' :: _ => "Boolean"
  | _ => "Int"

theorem shownKind_numeral {c : Char} (hc : isNumeral c) (rest : List Char) :
    shownKind (c :: rest) = "Int" := by
  unfold shownKind
  split <;> rename_i heq
  all_goals first
    | rfl
    | obtain ⟨rfl, -⟩ := List.cons.inj heq
      exact absurd hc (by decide)

theorem startsOutside_fieldsChars (fields : List (Name × Value)) (rest : List Char) :
    StartsOutside isNumeral (fieldsChars names ", " fields ++ ' ' :: rest) := by
  have hcomma : ", ".toList = [',', ' '] := rfl
  rcases fields with - | ⟨⟨x, v⟩, fields⟩
  · exact startsOutside_cons.mpr (by decide)
  · rw [fieldsChars_cons, hcomma]
    exact startsOutside_cons.mpr (by decide)

theorem shownKind_chars {v : Value} (hv : v.IsData) (rest : List Char) :
    shownKind (v.chars names ++ rest) = v.typeName := by
  have hspace : " ".toList = [' '] := rfl
  cases v with
  | int n =>
    rcases hn : (integerText n).toList with - | ⟨c, cs⟩
    · exact absurd hn (integerText_ne_nil n)
    · have hc : isNumeral c := isNumeral_of_mem_integerText (hn ▸ List.mem_cons_self)
      rw [chars_int, hn]
      exact shownKind_numeral hc _
  | bool b =>
    rw [chars_bool]
    cases b <;> rfl
  | str s =>
    rw [chars_str, quoted, String.toList_ofList]
    rfl
  | unit =>
    rw [chars_unit]
    rfl
  | closure code env => exact absurd hv.isFirstOrder Bool.false_ne_true
  | record stamp fields =>
    rw [chars_record]
    rcases fields with - | ⟨⟨x, v⟩, fields⟩
    · rfl
    · rw [fieldsChars_cons, hspace]
      rfl
  | variant tag v =>
    rw [chars_variant]
    rfl
  | capability handle => exact absurd hv.isFirstOrder Bool.false_ne_true

/-- Texts that agree, whatever comes after them, show values of one kind. -/
theorem typeName_eq_of_chars {v w : Value} (hv : v.IsData) (hw : w.IsData) {r s : List Char}
    (h : v.chars names ++ r = w.chars names ++ s) : v.typeName = w.typeName := by
  rw [← shownKind_chars hv r, h, shownKind_chars hw s]

/-! ## What a text says about its value -/

/-- **The text says which value it shows**, but for the stamps, and where it ends.  What comes after
it does not start with a character of a number. -/
def ReadBack (names : NameTable) (v : Value) : Prop :=
  ∀ ⦃w : Value⦄ ⦃r s : List Char⦄, w.Legible names → StartsOutside isNumeral r →
    StartsOutside isNumeral s → v.chars names ++ r = w.chars names ++ s →
    v.unstamped = w.unstamped ∧ r = s

/-- A field follows, so the record does not end here. -/
theorem fieldsChars_cons_ne {x : Name} (hword : IsWord (names.resolve x)) {separator : String}
    (hseparator : separator = " " ∨ separator = ", ") (v : Value) (rest : List (Name × Value))
    (r s : List Char) :
    fieldsChars names separator ((x, v) :: rest) ++ r ≠ ' ' :: '\x7d' :: s := by
  have hspace : " ".toList = [' '] := rfl
  have hcomma : ", ".toList = [',', ' '] := rfl
  rw [fieldsChars_cons]
  rcases hseparator with rfl | rfl
  · rw [hspace, List.append_assoc, List.append_assoc]
    intro h
    exact hword.append_ne (by decide) (List.cons.inj h).2
  · rw [hcomma]
    intro h
    exact absurd (List.cons.inj h).1 (by decide)

theorem readBack_int (n : Int64) : (int n).ReadBack names := by
  intro w r s hw hr hs h
  have hkind := typeName_eq_of_chars (isData_int n) hw.data h
  cases w with
  | int m =>
    rw [chars_int, chars_int] at h
    obtain ⟨rfl, hrest⟩ := integerText_append_inj hr hs h
    exact ⟨rfl, hrest⟩
  | _ => simp [typeName] at hkind

theorem readBack_bool (b : Bool) : (bool b).ReadBack names := by
  intro w r s hw hr hs h
  have hkind := typeName_eq_of_chars (isData_bool b) hw.data h
  cases w with
  | bool c =>
    rw [chars_bool, chars_bool] at h
    have hword : b = c := by
      rcases b with - | - <;> rcases c with - | -
      · rfl
      · exact absurd (List.cons.inj h).1 (by decide)
      · exact absurd (List.cons.inj h).1 (by decide)
      · rfl
    subst hword
    exact ⟨rfl, List.append_cancel_left h⟩
  | _ => simp [typeName] at hkind

theorem readBack_str (s : String) : (str s).ReadBack names := by
  intro w r r' hw hr hr' h
  have hkind := typeName_eq_of_chars (isData_str s) hw.data h
  cases w with
  | str t =>
    rw [chars_str, chars_str] at h
    obtain ⟨rfl, hrest⟩ := quoted_append_inj h
    exact ⟨rfl, hrest⟩
  | _ => simp [typeName] at hkind

theorem readBack_unit : unit.ReadBack names := by
  intro w r s hw hr hs h
  have hkind := typeName_eq_of_chars isData_unit hw.data h
  cases w with
  | unit => exact ⟨rfl, List.append_cancel_left h⟩
  | _ => simp [typeName] at hkind

variable (hdistinct : names.texts.toList.Nodup)
include hdistinct

/-- **Fields are known from their texts**, one after the other, if each value is. -/
theorem fields_readBack {fs gs : List (Name × Value)}
    (hfs : ∀ f ∈ fs, IsWord (names.resolve f.1) ∧ f.2.ReadBack names)
    (hgs : ∀ g ∈ gs, IsWord (names.resolve g.1) ∧ g.2.Legible names) {separator : String}
    (hseparator : separator = " " ∨ separator = ", ") {r s : List Char}
    (h : fieldsChars names separator fs ++ ' ' :: '\x7d' :: r =
      fieldsChars names separator gs ++ ' ' :: '\x7d' :: s) :
    unstampedFields fs = unstampedFields gs ∧ r = s := by
  induction fs generalizing gs separator with
  | nil =>
    rcases gs with - | ⟨⟨y, w⟩, gs⟩
    · exact ⟨rfl, (List.cons.inj (List.cons.inj h).2).2⟩
    · rw [List.forall_mem_cons] at hgs
      exact absurd h.symm (fieldsChars_cons_ne hgs.1.1 hseparator w gs _ _)
  | cons f fs ih =>
    obtain ⟨x, v⟩ := f
    rw [List.forall_mem_cons] at hfs
    obtain ⟨⟨hx, hv⟩, hfs⟩ := hfs
    rcases gs with - | ⟨⟨y, w⟩, gs⟩
    · exact absurd h (fieldsChars_cons_ne hx hseparator v fs _ _)
    · rw [List.forall_mem_cons] at hgs
      obtain ⟨⟨hy, hw⟩, hgs⟩ := hgs
      simp only [fieldsChars_cons, List.append_assoc, List.append_cancel_left_eq,
        List.cons_append] at h
      obtain ⟨hname, hrest⟩ := hx.append_inj hy (by decide) h
      obtain rfl := NameTable.resolve_inj hdistinct hx hname
      rw [List.cons.injEq, List.cons.injEq] at hrest
      obtain ⟨hsame, hfields⟩ := hv hw (startsOutside_fieldsChars fs _)
        (startsOutside_fieldsChars gs _) hrest.2.2
      obtain ⟨hothers, hend⟩ := ih hfs hgs (.inr rfl) hfields
      exact ⟨by rw [unstampedFields, unstampedFields, hsame, hothers], hend⟩

theorem readBack_record {stamp : Stamp} {fs : List (Name × Value)}
    (hdata : ∀ f ∈ fs, f.2.IsData)
    (hfs : ∀ f ∈ fs, IsWord (names.resolve f.1) ∧ f.2.ReadBack names) :
    (record stamp fs).ReadBack names := by
  intro w r s hw hr hs h
  have hkind := typeName_eq_of_chars (isData_record.mpr hdata) hw.data h
  cases w with
  | record stamp' gs =>
    simp only [chars_record, List.cons_append, List.append_assoc, List.nil_append] at h
    obtain ⟨hfields, hrest⟩ := fields_readBack hdistinct hfs (legible_record.mp hw) (.inl rfl)
      (List.cons.inj h).2
    exact ⟨by rw [unstamped, unstamped, hfields], hrest⟩
  | _ => simp [typeName] at hkind

theorem readBack_variant {tag : Name} {v : Value} (hdata : v.IsData)
    (htag : IsWord (names.resolve tag)) (hv : v.ReadBack names) :
    (variant tag v).ReadBack names := by
  intro w r s hw hr hs h
  have hkind := typeName_eq_of_chars (isData_variant.mpr hdata) hw.data h
  cases w with
  | variant tag' w =>
    obtain ⟨htag', hpart⟩ := legible_variant.mp hw
    simp only [chars_variant, List.cons_append, List.append_assoc, List.nil_append] at h
    obtain ⟨hname, hpayload⟩ := htag.append_inj htag' (by decide) (List.cons.inj h).2
    obtain rfl := NameTable.resolve_inj hdistinct htag hname
    rw [List.cons.injEq, List.cons.injEq] at hpayload
    have hend (rest : List Char) : StartsOutside isNumeral ('>' :: rest) :=
      startsOutside_cons.mpr (by decide)
    obtain ⟨hsame, hrest⟩ := hv hpart (hend r) (hend s) hpayload.2.2
    exact ⟨by rw [unstamped, unstamped, hsame], (List.cons.inj hrest).2⟩
  | _ => simp [typeName] at hkind

/-- **Every value is known from its text.** -/
theorem Legible.readBack {v : Value} (hv : v.Legible names) : v.ReadBack names := by
  induction v using Value.induction with
  | int n => exact readBack_int n
  | bool b => exact readBack_bool b
  | str s => exact readBack_str s
  | unit => exact readBack_unit
  | closure code env => exact absurd hv.data.isFirstOrder Bool.false_ne_true
  | record stamp fields ih =>
    rw [legible_record] at hv
    refine readBack_record hdistinct (fun f hf => (hv f hf).2.data) fun f hf => ?_
    exact ⟨(hv f hf).1, ih f hf (hv f hf).2⟩
  | variant tag v ih =>
    obtain ⟨htag, hv⟩ := legible_variant.mp hv
    exact readBack_variant hdistinct hv.data htag (ih hv)
  | capability handle => exact absurd hv.data.isFirstOrder Bool.false_ne_true

end Value

/-- **Data that have the same text are the same tree**, and only these: they have the same scalars,
tags, fields and order of fields, and differ in their stamps at most.  The names are spelled as
words and come from one table, which lists no text twice, as interning sees to
(`SharedTable.Sound.nodup`); strings may contain anything. -/
theorem text_determines_data {names : NameTable} (hdistinct : names.texts.toList.Nodup)
    {v w : Value} (hv : v.Legible names) (hw : w.Legible names) :
    v.text names = w.text names ↔ v.unstamped = w.unstamped := by
  constructor
  · intro h
    have hchars : v.chars names ++ [] = w.chars names ++ [] := by
      rw [Value.chars, Value.chars, h]
    exact (hv.readBack hdistinct hw (startsOutside_nil _) (startsOutside_nil _) hchars).1
  · intro h
    have htwin : Value.Twin (fun _ => True) v w := ⟨h, fun u _ => by cases u <;> trivial⟩
    refine Value.twin_faithful.under.text_eq (fun x y hxy => ?_) htwin
    rw [hxy]

/-- A record whose one field quotes the end of a field and the start of another one, and the record
with both fields. -/
theorem quoted_fields_differ :
    let names : NameTable := ⟨#["", "a", "b", "Some"]⟩
    let v : Value := .variant ⟨3⟩ (.record ⟨0⟩ [(⟨1⟩, .str "1\", b = \"2")])
    let w : Value := .variant ⟨3⟩ (.record ⟨0⟩ [(⟨1⟩, .str "1"), (⟨2⟩, .str "2")])
    names.texts.toList.Nodup ∧ v.Legible names ∧ w.Legible names ∧ v.text names ≠ w.text names := by
  intro names v w
  have hdistinct : names.texts.toList.Nodup := by decide
  have hfield {x : Name} (s : String) (hx : IsWord (names.resolve x)) :
      IsWord (names.resolve x) ∧ (Value.str s).Legible names := ⟨hx, Value.legible_of_isScalar rfl⟩
  have hv : v.Legible names := by
    refine Value.legible_variant.mpr ⟨by decide, Value.legible_record.mpr ?_⟩
    exact List.forall_mem_singleton.mpr (hfield _ (by decide))
  have hw : w.Legible names := by
    refine Value.legible_variant.mpr ⟨by decide, Value.legible_record.mpr ?_⟩
    refine List.forall_mem_cons.mpr ⟨hfield _ (by decide), ?_⟩
    exact List.forall_mem_singleton.mpr (hfield _ (by decide))
  refine ⟨hdistinct, hv, hw, fun h => ?_⟩
  have hsame := (text_determines_data hdistinct hv hw).mp h
  simp [v, w, Value.unstamped, Value.unstampedFields] at hsame

end CapLang
