import CapLang.Source.Lines
import Mathlib.Data.List.DropRight
import Mathlib.Data.String.Basic

/-!
# Where characters stand

Between two characters, or at either end of a text, an offset cuts the text in two, and its line
and column can be read off the first part alone (`Position.after`): one line for every line end,
and one column for every character since the last of them.

The table finds the same (`LineTable.position_after`).  A start is entered for every line end and
at no other place, so the starts at the offset or before it are the first line's and one for each
line end of the first part; the last of them is where the full lines of that part stop.  What is
left is its last line, and the column counts it.

From this the other facts follow.  The part before a later offset is longer, by a line end or by
characters of the same line, so places come in the order of the offsets.  And full lines and last
line make up the first part, so their bytes are the offset again (`LineTable.offset?`).
-/
namespace CapLang
open String (utf8Len)

theorem length_le_utf8Len (cs : List Char) : cs.length ≤ utf8Len cs := by
  induction cs with
  | nil => exact Nat.le_refl 0
  | cons c cs ih =>
    have hc := c.utf8Size_pos
    rw [List.length_cons, String.utf8Len_cons]
    omega

/-! ## Lines of a list of characters -/

/-- The lines of a text that are ended in it, each with its line end. -/
def fullLines (cs : List Char) : List Char := cs.rdropWhile (· ≠ '\n')

/-- What follows the last line end of a text. -/
def lastLine (cs : List Char) : List Char := cs.rtakeWhile (· ≠ '\n')

@[simp] theorem fullLines_append_lastLine (cs : List Char) : fullLines cs ++ lastLine cs = cs :=
  List.rdropWhile_append_rtakeWhile

theorem newline_notMem_lastLine (cs : List Char) : '\n' ∉ lastLine cs := by
  intro h
  simpa using List.mem_rtakeWhile_imp h

theorem utf8Len_fullLines_add (cs : List Char) :
    utf8Len (fullLines cs) + utf8Len (lastLine cs) = utf8Len cs := by
  rw [← String.utf8Len_append, fullLines_append_lastLine]

theorem count_fullLines (cs : List Char) : (fullLines cs).count '\n' = cs.count '\n' := by
  conv_rhs => rw [← fullLines_append_lastLine cs]
  rw [List.count_append, List.count_eq_zero_of_not_mem (newline_notMem_lastLine cs), Nat.add_zero]

/-- Full lines are none, or they end in a line end. -/
theorem fullLines_eq_nil_or_concat (cs : List Char) :
    fullLines cs = [] ∨ ∃ earlier, fullLines cs = earlier ++ ['\n'] := by
  by_cases h : fullLines cs = []
  · exact .inl h
  · refine .inr ⟨(fullLines cs).dropLast, ?_⟩
    have hlast : (fullLines cs).getLast h = '\n' := by
      have hend := List.rdropWhile_last_not _ _ h
      rwa [decide_eq_true_eq, not_not] at hend
    rw [← hlast, List.dropLast_append_getLast h]

theorem lastLine_append {cs mid : List Char} (h : '\n' ∉ mid) :
    lastLine (cs ++ mid) = lastLine cs ++ mid := by
  have hmid : ∀ c ∈ mid.reverse, decide (c ≠ '\n') = true := by
    intro c hc
    refine decide_eq_true ?_
    rintro rfl
    exact h (List.mem_reverse.mp hc)
  simp only [lastLine, List.rtakeWhile, List.reverse_append, List.takeWhile_append_of_pos hmid,
    List.reverse_reverse]

/-! ## Places -/

namespace Position

/-- Places in reading order. -/
instance : LT Position where
  lt p q := p.line < q.line ∨ p.line = q.line ∧ p.column < q.column

theorem lt_iff {p q : Position} :
    p < q ↔ p.line < q.line ∨ p.line = q.line ∧ p.column < q.column := Iff.rfl

instance : LE Position where
  le p q := p.line < q.line ∨ p.line = q.line ∧ p.column ≤ q.column

theorem le_iff {p q : Position} :
    p ≤ q ↔ p.line < q.line ∨ p.line = q.line ∧ p.column ≤ q.column := Iff.rfl

theorem le_trans {p q r : Position} (h : p ≤ q) (h' : q ≤ r) : p ≤ r := by
  rw [le_iff] at h h' ⊢
  omega

theorem lt_asymm {p q : Position} (h : p < q) : ¬ q < p := by
  rw [lt_iff] at h ⊢
  omega

/-- **The place that follows a text**: one line for every line end, and one column for every
character since the last of them. -/
def after (cs : List Char) : Position := ⟨cs.count '\n' + 1, (lastLine cs).length + 1⟩

/-- Lines and columns do not outrun bytes, so numbers of 32 bits hold every place of a text of fewer
than `2 ^ 32 - 1` bytes. -/
theorem after_le (cs : List Char) :
    (after cs).line ≤ utf8Len cs + 1 ∧ (after cs).column ≤ utf8Len cs + 1 := by
  have hbytes := length_le_utf8Len cs
  have hlines : cs.count '\n' ≤ cs.length := List.count_le_length
  have hcolumns : (lastLine cs).length ≤ cs.length := (List.rtakeWhile_suffix _ _).length_le
  simp only [after]
  omega

/-- More text ends at a later place. -/
theorem after_lt_after_append (cs : List Char) {mid : List Char} (h : mid ≠ []) :
    after cs < after (cs ++ mid) := by
  rw [lt_iff]
  simp only [after, List.count_append]
  by_cases hline : '\n' ∈ mid
  · have hcount := List.count_pos_iff.mpr hline
    omega
  · have hlength := List.length_pos_iff.mpr h
    rw [List.count_eq_zero_of_not_mem hline, lastLine_append hline, List.length_append]
    omega

end Position

/-! ## Cutting a text -/

theorem dropBytes?_append (before rest : List Char) :
    dropBytes? (utf8Len before) (before ++ rest) = some rest := by
  induction before with
  | nil => cases rest <;> rfl
  | cons c before ih =>
    have hc := c.utf8Size_pos
    rw [List.cons_append, dropBytes?, String.utf8Len_cons, if_neg (by omega), if_pos (by omega),
      Nat.add_sub_cancel, ih]

theorem countChars?_append (count : Nat) (before rest : List Char) :
    countChars? (utf8Len before) count (before ++ rest) = some (count + before.length) := by
  induction before generalizing count with
  | nil => cases rest <;> rfl
  | cons c before ih =>
    have hc := c.utf8Size_pos
    rw [List.cons_append, countChars?, String.utf8Len_cons, if_neg (by omega), if_pos (by omega),
      Nat.add_sub_cancel, ih, List.length_cons]
    congr 1
    omega

/-- An offset between characters, or at an end of the text, cuts the text in two. -/
theorem exists_split {s : String} {offset : Nat} (h : (String.Pos.Raw.mk offset).IsValid s) :
    ∃ before after, s.toList = before ++ after ∧ utf8Len before = offset := by
  obtain ⟨before, after, rfl, hoffset⟩ := String.Pos.Raw.isValid_iff_exists_append.mp h
  refine ⟨before.toList, after.toList, String.toList_append, ?_⟩
  rw [String.utf8Len_toList, ← String.byteIdx_rawEndPos, ← hoffset]

/-- Of two ways to cut a text, the one further on adds characters to the first part of the other. -/
theorem exists_append_of_utf8Len_lt {before after before' after' : List Char}
    (h : before ++ after = before' ++ after') (hlt : utf8Len before < utf8Len before') :
    ∃ mid, mid ≠ [] ∧ before' = before ++ mid := by
  rcases List.append_eq_append_iff.mp h with ⟨mid, hmid, -⟩ | ⟨mid, rfl, -⟩
  · refine ⟨mid, ?_, hmid⟩
    rintro rfl
    rw [hmid, List.append_nil] at hlt
    exact Nat.lt_irrefl _ hlt
  · rw [String.utf8Len_append] at hlt
    omega

namespace LineTable

/-! ## Starts -/

theorem startsFrom_append (i : Nat) (before after : List Char) :
    startsFrom i (before ++ after) =
      startsFrom i before ++ startsFrom (i + utf8Len before) after := by
  induction before generalizing i with
  | nil => rfl
  | cons c before ih =>
    rw [List.cons_append, startsFrom, startsFrom, ih, String.utf8Len_cons,
      Nat.add_comm (utf8Len before), ← Nat.add_assoc]
    split <;> rfl

theorem length_startsFrom (i : Nat) (cs : List Char) :
    (startsFrom i cs).length = cs.count '\n' := by
  induction cs generalizing i with
  | nil => rfl
  | cons c cs ih =>
    by_cases hc : c = '\n'
    · rw [startsFrom, if_pos hc, List.length_cons, ih, hc, List.count_cons_self]
    · rw [startsFrom, if_neg hc, ih, List.count_cons_of_ne hc]

theorem startsFrom_bounds {i start : Nat} {cs : List Char} (h : start ∈ startsFrom i cs) :
    i < start ∧ start ≤ i + utf8Len cs := by
  induction cs generalizing i with
  | nil => cases h
  | cons c cs ih =>
    have hc := c.utf8Size_pos
    rw [String.utf8Len_cons]
    by_cases hend : c = '\n'
    · rw [startsFrom, if_pos hend] at h
      rcases List.mem_cons.mp h with rfl | h
      · omega
      · have := ih h
        omega
    · rw [startsFrom, if_neg hend] at h
      have := ih h
      omega

variable {s : String} {before after : List Char} {offset : Nat}

theorem toList_eq_lines (hs : s.toList = before ++ after) :
    s.toList = fullLines before ++ (lastLine before ++ after) := by
  rw [hs, ← List.append_assoc, fullLines_append_lastLine]

/-- The full lines of the first part of a text are the lines before the one that starts next. -/
theorem starts_after (hs : s.toList = before ++ after) :
    (ofText s).starts[before.count '\n']? = some (utf8Len (fullLines before)) := by
  rw [ofText, toList_eq_lines hs, ← count_fullLines]
  -- the start was entered with the line end that closes the full lines
  rcases fullLines_eq_nil_or_concat before with h | ⟨earlier, h⟩
  · rw [h]
    rfl
  · rw [h, List.append_assoc, startsFrom_append, List.count_append,
      List.count_singleton_self, List.getElem?_cons_succ,
      List.getElem?_append_right (Nat.le_of_eq (length_startsFrom 0 earlier)), length_startsFrom,
      Nat.sub_self, String.utf8Len_append, Nat.zero_add]
    rfl

/-! ## Lines and columns of offsets -/

/-- An offset is on the line on which the text up to it ends, if no line of the rest starts there or
before it. -/
theorem line_eq (hs : s.toList = before ++ after) (hbefore : utf8Len before ≤ offset)
    (hafter : ∀ start ∈ startsFrom (utf8Len before) after, offset < start) :
    (ofText s).line offset = before.count '\n' + 1 := by
  have hstarted : (startsFrom 0 before).countP (· ≤ offset) = before.count '\n' := by
    rw [← length_startsFrom 0, List.countP_eq_length]
    intro start hstart
    have := startsFrom_bounds hstart
    exact decide_eq_true (by omega)
  have hlater : (startsFrom (utf8Len before) after).countP (· ≤ offset) = 0 := by
    rw [List.countP_eq_zero]
    intro start hstart
    simpa using hafter start hstart
  have hfirst : decide (0 ≤ offset) = true := decide_eq_true (Nat.zero_le _)
  simp only [line, ofText, hs, startsFrom_append, Nat.zero_add, List.countP_append, hstarted,
    hlater, List.countP_cons, hfirst, if_true]
  omega

theorem line_after (hs : s.toList = before ++ after) :
    (ofText s).line (utf8Len before) = before.count '\n' + 1 :=
  line_eq hs (Nat.le_refl _) fun _ hstart => (startsFrom_bounds hstart).1

/-- **At a cut, the line and the column are those of the first part.** -/
theorem position_after (hs : s.toList = before ++ after) :
    (ofText s).position s (utf8Len before) = .after before := by
  have hsize : s.utf8ByteSize = utf8Len before + utf8Len after := by
    rw [← String.utf8Len_toList, hs, String.utf8Len_append]
  have hlines := utf8Len_fullLines_add before
  have hstop : max (min (utf8Len before) s.utf8ByteSize) (utf8Len (fullLines before)) -
      utf8Len (fullLines before) = utf8Len (lastLine before) := by omega
  simp only [position, line_after hs, Nat.add_sub_cancel, starts_after hs, Option.getD_some,
    hstop, toList_eq_lines hs, dropBytes?_append, countChars?_append, Option.bind_some,
    Nat.zero_add, Position.after]

/-- Later characters are at later places. -/
theorem position_lt_position {offset' : Nat} (h : (String.Pos.Raw.mk offset).IsValid s)
    (h' : (String.Pos.Raw.mk offset').IsValid s) (hlt : offset < offset') :
    (ofText s).position s offset < (ofText s).position s offset' := by
  obtain ⟨before, after, hs, rfl⟩ := exists_split h
  obtain ⟨before', after', hs', rfl⟩ := exists_split h'
  obtain ⟨mid, hmid, rfl⟩ := exists_append_of_utf8Len_lt (hs.symm.trans hs') hlt
  rw [position_after hs, position_after hs']
  exact Position.after_lt_after_append before hmid

/-- Offsets after the text are at its end. -/
theorem position_of_size_le (h : s.utf8ByteSize ≤ offset) :
    (ofText s).position s offset = (ofText s).position s s.utf8ByteSize := by
  have hline : (ofText s).line offset = (ofText s).line s.utf8ByteSize := by
    rw [line, line]
    congr 1
    refine List.countP_congr ?_
    intro start hstart
    have hle : start ≤ s.utf8ByteSize := by
      rcases List.mem_cons.mp hstart with rfl | hstart
      · exact Nat.zero_le _
      · have := startsFrom_bounds hstart
        rw [String.utf8Len_toList] at this
        omega
    simp only [decide_eq_true_eq]
    omega
  simp only [position, hline, Nat.min_eq_right h, Nat.min_self]

theorem lineCount_ofText (s : String) : (ofText s).lineCount = s.toList.count '\n' + 1 := by
  rw [lineCount, ofText, List.length_cons, length_startsFrom]

/-- The offset of a place: the start of its line, and the bytes of the characters of that line that
come before its column. -/
def offset? (t : LineTable) (s : String) (p : Position) : Option Nat := do
  let start ← t.starts[p.line - 1]?
  let rest ← dropBytes? start s.toList
  let line := rest.takeWhile (· ≠ '\n')
  return start + utf8Len (line.take (p.column - 1))

theorem offset?_after (hs : s.toList = before ++ after) :
    (ofText s).offset? s (.after before) = some (utf8Len before) := by
  have hline : (lastLine before ++ after).takeWhile (· ≠ '\n') =
      lastLine before ++ after.takeWhile (· ≠ '\n') := by
    refine List.takeWhile_append_of_pos ?_
    intro c hc
    exact List.mem_rtakeWhile_imp (p := fun c => decide (c ≠ '\n')) hc
  simp only [offset?, Position.after, Nat.add_sub_cancel, starts_after hs, toList_eq_lines hs,
    dropBytes?_append, Option.bind_eq_bind, Option.bind_some, Option.pure_def, hline,
    List.take_left, utf8Len_fullLines_add]

end LineTable
end CapLang
