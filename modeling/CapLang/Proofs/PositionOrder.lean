import CapLang.Proofs.LinesAndColumns

/-!
# Places in the order of offsets

Offsets come from outside and may lie anywhere: at the beginning of a character, within one, or
after the text.  Such an offset is judged by the characters that end there or before
(`charsUpTo`).  They decide the line in every case (`LineTable.line_charsUpTo`), and they are more
at a later offset (`charsUpTo_mono`), so no later offset is on an earlier line.

They decide the column too where a character begins and after the text, but within a character the
column is 1, however far into the line that is (`LineTable.position_within`).  So a later offset
can be at an earlier place of the same line, if it lies within a character and only then.
-/
namespace CapLang
open String (utf8Len)

/-- The characters of a text that end at an offset or before it. -/
def charsUpTo (offset : Nat) : List Char → List Char
  | [] => []
  | c :: cs => if c.utf8Size ≤ offset then c :: charsUpTo (offset - c.utf8Size) cs else []

/-- The offset lies within a character, after its first byte. -/
def WithinCharacter (s : String) (offset : Nat) : Prop :=
  offset < s.utf8ByteSize ∧ ¬ (String.Pos.Raw.mk offset).IsValid s

instance (s : String) (offset : Nat) : Decidable (WithinCharacter s offset) :=
  inferInstanceAs (Decidable (_ ∧ ¬ _))

/-- At a later offset, more characters have ended. -/
theorem charsUpTo_mono {offset offset' : Nat} (h : offset ≤ offset') (cs : List Char) :
    charsUpTo offset cs <+: charsUpTo offset' cs := by
  induction cs generalizing offset offset' with
  | nil => exact List.prefix_refl []
  | cons c cs ih =>
    rw [charsUpTo, charsUpTo]
    by_cases hc : c.utf8Size ≤ offset
    · rw [if_pos hc, if_pos (Nat.le_trans hc h), List.cons_prefix_cons]
      exact ⟨rfl, ih (Nat.sub_le_sub_right h _)⟩
    · rw [if_neg hc]
      exact List.nil_prefix

/-- **Where an offset lies**: where a character begins or the text ends, after the text, or between
the first byte of a character and the next character. -/
theorem charsUpTo_cases (offset : Nat) (cs : List Char) :
    (∃ rest, cs = charsUpTo offset cs ++ rest ∧ utf8Len (charsUpTo offset cs) = offset) ∨
    (charsUpTo offset cs = cs ∧ utf8Len cs < offset) ∨
    ∃ c rest, cs = charsUpTo offset cs ++ c :: rest ∧
      utf8Len (charsUpTo offset cs) < offset ∧
      offset < utf8Len (charsUpTo offset cs) + c.utf8Size := by
  induction cs generalizing offset with
  | nil =>
    rcases Nat.eq_zero_or_pos offset with rfl | hpos
    · exact .inl ⟨[], rfl, rfl⟩
    · exact .inr (.inl ⟨rfl, hpos⟩)
  | cons c cs ih =>
    rw [charsUpTo]
    by_cases hc : c.utf8Size ≤ offset
    · simp only [if_pos hc, String.utf8Len_cons]
      rcases ih (offset - c.utf8Size) with
        ⟨rest, hrest, hlen⟩ | ⟨hall, hlen⟩ | ⟨d, rest, hrest, hlo, hhi⟩
      · exact .inl ⟨rest, congrArg (c :: ·) hrest, by omega⟩
      · exact .inr (.inl ⟨congrArg (c :: ·) hall, by omega⟩)
      · exact .inr (.inr ⟨d, rest, congrArg (c :: ·) hrest, by omega, by omega⟩)
    · rw [if_neg hc]
      rcases Nat.eq_zero_or_pos offset with rfl | hpos
      · exact .inl ⟨c :: cs, rfl, rfl⟩
      · exact .inr (.inr ⟨c, cs, rfl, hpos, by simpa using hc⟩)

/-- More text does not end at an earlier place. -/
theorem Position.after_mono {cs cs' : List Char} (h : cs <+: cs') : after cs ≤ after cs' := by
  obtain ⟨mid, rfl⟩ := h
  by_cases hmid : mid = []
  · rw [hmid, List.append_nil]
    exact .inr ⟨rfl, Nat.le_refl _⟩
  · have hlt := after_lt_after_append cs hmid
    rw [lt_iff] at hlt
    rw [le_iff]
    omega

/-- Characters are not counted up to an offset within one. -/
theorem countChars?_within (count : Nat) (before rest : List Char) {c : Char} {k : Nat}
    (hpos : 0 < k) (hlt : k < c.utf8Size) :
    countChars? (utf8Len before + k) count (before ++ c :: rest) = none := by
  induction before generalizing count with
  | nil =>
    rw [String.utf8Len_nil, Nat.zero_add, List.nil_append, countChars?, if_neg (by omega),
      if_neg (by omega)]
  | cons d before ih =>
    rw [List.cons_append, countChars?, String.utf8Len_cons, if_neg (by omega), if_pos (by omega),
      ← ih (count + 1)]
    congr 1
    omega

namespace LineTable

variable {s : String} {before rest : List Char} {c : Char} {offset offset' : Nat}

/-! ## Offsets within a character -/

/-- No line starts after the first byte of a character and before the next one. -/
theorem lt_of_mem_startsFrom_cons (hc : utf8Len before < offset)
    (hlt : offset < utf8Len before + c.utf8Size) :
    ∀ start ∈ startsFrom (utf8Len before) (c :: rest), offset < start := by
  intro start hstart
  have hnewline : c ≠ '\n' := by
    rintro rfl
    have hone : '\n'.utf8Size = 1 := rfl
    omega
  rw [startsFrom, if_neg hnewline] at hstart
  have := startsFrom_bounds hstart
  omega

/-- **Within a character, the column is 1**, and the line is that of the character. -/
theorem position_within (hs : s.toList = before ++ c :: rest) (hpos : utf8Len before < offset)
    (hlt : offset < utf8Len before + c.utf8Size) :
    (ofText s).position s offset = ⟨before.count '\n' + 1, 1⟩ := by
  have hline : (ofText s).line offset = before.count '\n' + 1 :=
    line_eq hs (Nat.le_of_lt hpos) (lt_of_mem_startsFrom_cons hpos hlt)
  have hsize : s.utf8ByteSize = utf8Len before + (utf8Len rest + c.utf8Size) := by
    rw [← String.utf8Len_toList, hs, String.utf8Len_append, String.utf8Len_cons]
  have hlines := utf8Len_fullLines_add before
  have hstop : max (min offset s.utf8ByteSize) (utf8Len (fullLines before)) -
      utf8Len (fullLines before) = utf8Len (lastLine before) + (offset - utf8Len before) := by
    omega
  have hcount : countChars? (utf8Len (lastLine before) + (offset - utf8Len before)) 0
      (lastLine before ++ c :: rest) = none :=
    countChars?_within 0 (lastLine before) rest (by omega) (by omega)
  simp only [position, hline, Nat.add_sub_cancel, starts_after hs, Option.getD_some, hstop,
    toList_eq_lines hs, dropBytes?_append, Option.bind_some, hcount, Option.getD_none,
    Nat.zero_add]

theorem withinCharacter_of_between (hs : s.toList = before ++ c :: rest)
    (hpos : utf8Len before < offset) (hlt : offset < utf8Len before + c.utf8Size) :
    WithinCharacter s offset := by
  constructor
  · rw [← String.utf8Len_toList, hs, String.utf8Len_append, String.utf8Len_cons]
    omega
  · intro hvalid
    obtain ⟨before', after', hs', rfl⟩ := exists_split hvalid
    obtain ⟨mid, hmid, rfl⟩ := exists_append_of_utf8Len_lt (hs.symm.trans hs') hpos
    -- A first part that is longer holds the whole character.
    rw [hs, List.append_assoc, List.append_right_inj] at hs'
    cases mid with
    | nil => exact hmid rfl
    | cons d mid =>
      obtain ⟨rfl, -⟩ := List.cons.inj hs'
      rw [String.utf8Len_append, String.utf8Len_cons] at hlt
      omega

/-! ## Offsets anywhere -/

/-- **The line of an offset** is that on which the characters up to it end. -/
theorem line_charsUpTo (s : String) (offset : Nat) :
    (ofText s).line offset = (charsUpTo offset s.toList).count '\n' + 1 := by
  rcases charsUpTo_cases offset s.toList with
    ⟨rest, hs, hlen⟩ | ⟨hall, hlen⟩ | ⟨c, rest, hs, hpos, hlt⟩
  · refine line_eq hs (Nat.le_of_eq hlen) fun start hstart => ?_
    have := startsFrom_bounds hstart
    omega
  · have hs : s.toList = charsUpTo offset s.toList ++ [] := by rw [hall, List.append_nil]
    have hle : utf8Len (charsUpTo offset s.toList) ≤ offset := by
      rw [hall]
      exact Nat.le_of_lt hlen
    exact line_eq hs hle nofun
  · exact line_eq hs (Nat.le_of_lt hpos) (lt_of_mem_startsFrom_cons hpos hlt)

/-- **The place of an offset** is that which follows the characters up to the offset, but within a
character it is the first column of their line. -/
theorem position_charsUpTo (s : String) (offset : Nat) :
    (¬ WithinCharacter s offset ∧
      (ofText s).position s offset = .after (charsUpTo offset s.toList)) ∨
    (WithinCharacter s offset ∧
      (ofText s).position s offset = ⟨(charsUpTo offset s.toList).count '\n' + 1, 1⟩) := by
  rcases charsUpTo_cases offset s.toList with
    ⟨rest, hs, hlen⟩ | ⟨hall, hlen⟩ | ⟨c, rest, hs, hpos, hlt⟩
  · refine .inl ⟨fun hwithin => hwithin.2 ?_, ?_⟩
    · refine String.Pos.Raw.isValid_iff_exists_append.mpr
        ⟨.ofList (charsUpTo offset s.toList), .ofList rest, ?_, ?_⟩
      · rw [← String.ofList_append, ← hs, String.ofList_toList]
      · rw [String.Pos.Raw.ext_iff, String.byteIdx_rawEndPos, ← String.utf8Len_toList,
          String.toList_ofList, hlen]
    · conv_lhs => rw [← hlen]
      exact position_after hs
  · have hend : s.toList = s.toList ++ [] := (List.append_nil _).symm
    rw [String.utf8Len_toList] at hlen
    refine .inl ⟨fun hwithin => Nat.lt_asymm hlen hwithin.1, ?_⟩
    rw [position_of_size_le (Nat.le_of_lt hlen), hall, ← String.utf8Len_toList]
    exact position_after hend
  · exact .inr ⟨withinCharacter_of_between hs hpos hlt, position_within hs hpos hlt⟩

/-- A later offset is not on an earlier line. -/
theorem line_mono (s : String) (h : offset ≤ offset') :
    (ofText s).line offset ≤ (ofText s).line offset' := by
  rw [line_charsUpTo, line_charsUpTo]
  exact Nat.succ_le_succ ((charsUpTo_mono h s.toList).sublist.count_le _)

theorem position_le_after (s : String) (offset : Nat) :
    (ofText s).position s offset ≤ .after (charsUpTo offset s.toList) := by
  rcases position_charsUpTo s offset with ⟨-, hp⟩ | ⟨-, hp⟩
  · rw [hp]
    exact .inr ⟨rfl, Nat.le_refl _⟩
  · rw [hp]
    exact .inr ⟨rfl, Nat.le_add_left _ _⟩

end LineTable
end CapLang
