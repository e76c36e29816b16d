import CapLang.NameTable.Shared
import Mathlib.Data.List.Dedup
import Mathlib.Data.List.Perm.Subperm
import Mathlib.Logic.Function.Basic
import Mathlib.Logic.Relation

/-!
# Callers who share a name table

To intern a text a caller looks it up and, if it is missing, takes a second step to add it; other
callers take steps of their own in between.  Whatever the order of these steps, names and texts
correspond one to one.  The two parts of the table are inverse to each other
(`SharedTable.Sound`), because a position is entered in the index together with its text.  A text
gets no second name, because the second step of a caller looks again.  And a name keeps its text,
because texts are only ever appended.
-/
namespace CapLang

namespace SharedTable

variable {table : SharedTable} {s t : String} {x : Name}

/-! ## The two parts of a table -/

/-- **The index and the texts are inverse to each other.**  The empty text comes first, and no
position is beyond the bound. -/
structure Sound (table : SharedTable) : Prop where
  index : ∀ s i, table.positions.lookup s = some i ↔ table.names.texts[i]? = some s
  first : table.names.texts[0]? = some ""
  bounded : table.names.size ≤ NameTable.capacity

/-- The table with a text at the first free position. -/
def push (table : SharedTable) (s : String) : SharedTable :=
  ⟨(s, table.names.size) :: table.positions, ⟨table.names.texts.push s⟩⟩

theorem lookup_entry (t s : String) (i : Nat) (rest : List (String × Nat)) :
    List.lookup t ((s, i) :: rest) = if t = s then some i else rest.lookup t := by
  by_cases ht : t = s
  · rw [ht, if_pos rfl, List.lookup_cons_self]
  · rw [List.lookup_cons, beq_eq_false_iff_ne.mpr ht, if_neg ht]

theorem initial_sound : initial.Sound where
  index s i := by
    rw [initial, lookup_entry]
    cases i with
    | zero => simp [NameTable.initial, eq_comm]
    | succ i => simp [NameTable.initial]
  first := rfl
  bounded := by decide

theorem find?_push (table : SharedTable) (s t : String) :
    (table.push s).find? t = if t = s then some ⟨table.names.size⟩ else table.find? t := by
  rw [find?, push, lookup_entry, apply_ite (Option.map Name.mk)]
  rfl

namespace Sound

variable (h : table.Sound)
include h

theorem find?_iff : table.find? s = some x ↔ table.names.texts[x.index]? = some s := by
  rw [← h.index, find?, Option.map_eq_some_iff]
  constructor
  · rintro ⟨i, hi, rfl⟩
    exact hi
  · exact fun hx => ⟨x.index, hx, rfl⟩

theorem find?_empty : table.find? "" = some .empty := h.find?_iff.mpr h.first

/-- A name that is found resolves to the text. -/
theorem resolve (hx : table.find? s = some x) : table.names.resolve x = s := by
  rw [NameTable.resolve, h.find?_iff.mp hx, Option.getD_some]

/-- A text has one name, and a name one text. -/
theorem name_eq_iff {y : Name} (hx : table.find? s = some x) (hy : table.find? t = some y) :
    x = y ↔ s = t := by
  constructor
  · rintro rfl
    rw [← h.resolve hx, h.resolve hy]
  · rintro rfl
    rw [hx] at hy
    exact Option.some.inj hy

theorem mem_texts_iff : s ∈ table.names.texts.toList ↔ ∃ x, table.find? s = some x := by
  rw [List.mem_iff_getElem?]
  constructor
  · rintro ⟨i, hi⟩
    exact ⟨⟨i⟩, h.find?_iff.mpr (by rwa [← Array.getElem?_toList])⟩
  · rintro ⟨x, hx⟩
    exact ⟨x.index, by rw [Array.getElem?_toList]; exact h.find?_iff.mp hx⟩

theorem nodup : table.names.texts.toList.Nodup := by
  rw [List.nodup_iff_getElem?_ne_getElem?]
  intro i j hij hj heq
  rw [Array.getElem?_toList, Array.getElem?_toList] at heq
  have hsome : table.names.texts[j]? = some table.names.texts[j] := Array.getElem?_eq_getElem hj
  have hi := (h.index _ i).mpr (heq.trans hsome)
  have hj := (h.index _ j).mpr hsome
  rw [hi] at hj
  exact absurd (Option.some.inj hj) (Nat.ne_of_lt hij)

/-- To add a text that is missing keeps the two parts inverse to each other. -/
theorem push (absent : table.find? s = none) (room : table.names.size < NameTable.capacity) :
    (table.push s).Sound where
  index t i := by
    have hfree : ∀ j : Nat, table.names.texts[j]? ≠ some s := by
      intro j hj
      have hfound : table.find? s = some ⟨j⟩ := h.find?_iff.mpr hj
      rw [absent] at hfound
      cases hfound
    rw [SharedTable.push, lookup_entry, Array.getElem?_push, NameTable.size]
    by_cases ht : t = s
    · subst ht
      by_cases hi : i = table.names.texts.size
      · simp [hi]
      · simp [hi, hfree i, eq_comm]
    · by_cases hi : i = table.names.texts.size
      · simp [hi, ht, h.index, Ne.symm ht]
      · simp [hi, ht, h.index]
  first := by
    have hpos : 0 < table.names.texts.size := (Array.getElem?_eq_some_iff.mp h.first).1
    rw [SharedTable.push, Array.getElem?_push, if_neg (Nat.ne_of_lt hpos)]
    exact h.first
  bounded := by
    rw [SharedTable.push, NameTable.size, Array.size_push]
    exact room

end Sound

/-- **What it comes to to add a text** that may or may not be there by now. -/
inductive Adds (table : SharedTable) (s : String) : Except TableFull (Name × SharedTable) → Prop
  | present {x : Name} (found : table.find? s = some x) : Adds table s (.ok (x, table))
  | fresh (absent : table.find? s = none) (room : table.names.size < NameTable.capacity) :
      Adds table s (.ok (⟨table.names.size⟩, table.push s))
  | full (absent : table.find? s = none) (noRoom : NameTable.capacity ≤ table.names.size) :
      Adds table s (.error ⟨table.names.size⟩)

theorem insert_adds (table : SharedTable) (s : String) : table.Adds s (table.insert s) := by
  unfold insert
  cases hfound : table.find? s with
  | some x => exact .present hfound
  | none =>
    by_cases hroom : table.names.size < NameTable.capacity
    · simp only [if_pos hroom]
      exact .fresh hfound hroom
    · simp only [if_neg hroom]
      exact .full hfound (Nat.le_of_not_lt hroom)

/-! ## The name table by itself -/

/-- What a search finds is at the position that it gives. -/
theorem getElem?_of_search {names : NameTable} (h : names.find? s = some x) :
    names.texts[x.index]? = some s := by
  rw [NameTable.find?, Option.map_eq_some_iff] at h
  obtain ⟨i, hi, rfl⟩ := h
  rw [Array.idxOf?_eq_map_finIdxOf?_val, Option.map_eq_some_iff] at hi
  obtain ⟨j, hj, rfl⟩ := hi
  rw [Array.getElem?_eq_getElem j.isLt]
  exact congrArg some (Array.finIdxOf?_eq_some_iff.mp hj).1

namespace Sound

variable (h : table.Sound)
include h

/-- **The index finds what a search through the texts finds.** -/
theorem find?_eq (s : String) : table.find? s = table.names.find? s := by
  cases hsearch : table.names.find? s with
  | some x => exact h.find?_iff.mpr (getElem?_of_search hsearch)
  | none =>
    rw [NameTable.find?, Option.map_eq_none_iff, Array.idxOf?_eq_none_iff] at hsearch
    cases hfound : table.find? s with
    | some x => exact absurd (Array.mem_of_getElem? (h.find?_iff.mp hfound)) hsearch
    | none => rfl

/-- **One caller alone interns as if there were the texts only.** -/
theorem intern?_eq (s : String) :
    (table.intern? s).map (fun r => (r.1, r.2.names)) = table.names.intern? s := by
  rw [intern?, NameTable.intern?, ← h.find?_eq]
  cases hfound : table.find? s with
  | some x => rfl
  | none =>
    have hadds := table.insert_adds s
    simp only [NameTable.insert, ← h.find?_eq, hfound]
    generalize table.insert s = r at hadds ⊢
    cases hadds with
    | present found =>
      rw [hfound] at found
      cases found
    | fresh absent room => exact (if_pos room).symm
    | full absent noRoom => exact (if_neg (Nat.not_lt.mpr noRoom)).symm

end Sound
end SharedTable

/-! ## Callers -/

/-- A table and what callers are doing to it. -/
structure Callers where
  table : SharedTable
  /-- The text that a caller has looked up in vain and is going to add. -/
  waiting : Nat → Option String
  /-- The calls that are over, with what they came to, the last one first. -/
  finished : List (String × Except TableFull Name)

namespace Callers

/-- No one has done anything yet. -/
def start : Callers := ⟨.initial, fun _ => none, []⟩

variable (st : Callers) (c : Nat) (s : String)

/-- A caller's call is over. -/
def finish (r : Except TableFull Name) : Callers :=
  { st with waiting := Function.update st.waiting c none, finished := (s, r) :: st.finished }

/-- **A step of a caller's call for a text.**  A caller who is in no call begins one by looking the
text up, and a caller who found nothing adds it. -/
inductive Step : Callers → Prop
  | found {x : Name} (idle : st.waiting c = none) (present : st.table.find? s = some x) :
      Step (st.finish c s (.ok x))
  | missed (idle : st.waiting c = none) (absent : st.table.find? s = none) :
      Step { st with waiting := Function.update st.waiting c (some s) }
  | added {x : Name} {table : SharedTable} (waits : st.waiting c = some s)
      (adds : st.table.insert s = .ok (x, table)) :
      Step { st.finish c s (.ok x) with table }
  | refused {full : TableFull} (waits : st.waiting c = some s)
      (fails : st.table.insert s = .error full) : Step (st.finish c s (.error full))

/-- Callers take steps in some order. -/
def Run : Callers → Callers → Prop :=
  Relation.ReflTransGen fun st st' => ∃ c s, st.Step c s st'

/-- A call for the text is over and has given the name. -/
def Returned (x : Name) : Prop := (s, .ok x) ∈ st.finished

/-- The texts that have been interned, the empty one included. -/
def interned : List String :=
  "" :: st.finished.filterMap fun call => call.2.toOption.map fun _ => call.1

/-- The texts that finished calls were for, and the empty one. -/
def asked : List String := "" :: st.finished.map (·.1)

/-- **What a step does**, by what the table has. -/
inductive Effect (st' : Callers) : Prop
  /-- The text is there, and the call is over. -/
  | present {x : Name} (found : st.table.find? s = some x) (table : st'.table = st.table)
      (finished : st'.finished = (s, .ok x) :: st.finished)
  /-- The text was looked up in vain, and the caller waits. -/
  | missed (idle : st.waiting c = none) (absent : st.table.find? s = none)
      (table : st'.table = st.table) (finished : st'.finished = st.finished)
  | fresh (absent : st.table.find? s = none) (room : st.table.names.size < NameTable.capacity)
      (table : st'.table = st.table.push s)
      (finished : st'.finished = (s, .ok ⟨st.table.names.size⟩) :: st.finished)
  | full (absent : st.table.find? s = none) (noRoom : NameTable.capacity ≤ st.table.names.size)
      (table : st'.table = st.table)
      (finished : st'.finished = (s, .error ⟨st.table.names.size⟩) :: st.finished)

variable {st c s} {st' : Callers} {x : Name}

theorem Step.effect (h : st.Step c s st') : st.Effect c s st' := by
  cases h with
  | found idle present => exact .present present rfl rfl
  | missed idle absent => exact .missed idle absent rfl rfl
  | added waits adds =>
    have hadds := st.table.insert_adds s
    rw [adds] at hadds
    cases hadds with
    | present found => exact .present found rfl rfl
    | fresh absent room => exact .fresh absent room rfl rfl
  | refused waits fails =>
    have hadds := st.table.insert_adds s
    rw [fails] at hadds
    cases hadds with
    | full absent noRoom => exact .full absent noRoom rfl rfl

/-- **Names and finished calls agree.** -/
structure Consistent (st : Callers) : Prop where
  sound : st.table.Sound
  /-- The names in the table are those that calls have given, and that of the empty text. -/
  names : ∀ s x, st.table.find? s = some x ↔ st.Returned s x ∨ s = "" ∧ x = .empty
  /-- A call fails only for a text that the table has no room for. -/
  failed : ∀ s full, (s, .error full) ∈ st.finished →
    full = ⟨NameTable.capacity⟩ ∧ st.table.names.size = NameTable.capacity ∧
      st.table.find? s = none

theorem start_consistent : start.Consistent where
  sound := SharedTable.initial_sound
  names s x := by
    rw [start, SharedTable.find?, SharedTable.initial, SharedTable.lookup_entry]
    by_cases hs : s = ""
    · simp [hs, Returned, Name.empty, eq_comm]
    · simp [hs, Returned]
  failed _ _ hmem := nomatch hmem

/-- A step keeps a text's name. -/
theorem Step.find?_mono (h : st.Step c s st') {t : String} (hx : st.table.find? t = some x) :
    st'.table.find? t = some x := by
  cases h.effect with
  | fresh absent room table =>
    have hne : t ≠ s := by
      rintro rfl
      rw [absent] at hx
      cases hx
    rw [table, SharedTable.find?_push, if_neg hne, hx]
  | present found table | missed idle absent table | full absent noRoom table => rw [table, hx]

/-- Where a call gives a name that the table has afterwards, and the table has no other new name,
names and finished calls still agree. -/
theorem Consistent.names_of_returned (hst : st.Consistent)
    (finished : st'.finished = (s, .ok x) :: st.finished)
    (table : ∀ t y, st'.table.find? t = some y ↔ (t = s ∧ y = x) ∨ st.table.find? t = some y)
    (t : String) (y : Name) :
    st'.table.find? t = some y ↔ st'.Returned t y ∨ t = "" ∧ y = .empty := by
  simp only [table, hst.names, Returned, finished, List.mem_cons, Prod.mk.injEq, Except.ok.injEq,
    or_assoc]

/-- **Every step keeps names and finished calls in agreement.** -/
theorem Step.consistent (h : st.Step c s st') (hst : st.Consistent) : st'.Consistent := by
  cases h.effect with
  | @present x found table finished =>
    refine ⟨by rw [table]; exact hst.sound, hst.names_of_returned finished fun t y => ?_, ?_⟩
    · rw [table, iff_or_self]
      rintro ⟨rfl, rfl⟩
      exact found
    · intro t full hmem
      rw [table]
      exact hst.failed t full (by simpa [finished] using hmem)
  | missed idle absent table finished =>
    refine ⟨by rw [table]; exact hst.sound, fun t y => ?_, fun t full hmem => ?_⟩
    · rw [table, hst.names, Returned, Returned, finished]
    · rw [finished] at hmem
      rw [table]
      exact hst.failed t full hmem
  | fresh absent room table finished =>
    refine ⟨by rw [table]; exact hst.sound.push absent room,
      hst.names_of_returned finished fun t y => ?_, fun t full hmem => ?_⟩
    · rw [table, SharedTable.find?_push]
      by_cases ht : t = s
      · simp [ht, absent, eq_comm]
      · simp [ht]
    · -- No call has failed before, since there was room until now.
      have hfull := (hst.failed t full (by simpa [finished] using hmem)).2.1
      omega
  | full absent noRoom table finished =>
    have hsize : st.table.names.size = NameTable.capacity :=
      Nat.le_antisymm hst.sound.bounded noRoom
    refine ⟨by rw [table]; exact hst.sound, fun t y => ?_, fun t full hmem => ?_⟩
    · rw [table, hst.names, Returned, Returned, finished, List.mem_cons]
      simp
    · rw [finished] at hmem
      rw [table]
      rcases List.mem_cons.mp hmem with heq | hmem
      · cases heq
        exact ⟨by rw [hsize], hsize, absent⟩
      · exact hst.failed t full hmem

namespace Run

variable (h : Run st st')
include h

theorem find?_mono {t : String} (hx : st.table.find? t = some x) :
    st'.table.find? t = some x := by
  induction h with
  | refl => exact hx
  | tail _ step ih =>
    obtain ⟨c, s, step⟩ := step
    exact step.find?_mono ih

theorem consistent (hst : st.Consistent) : st'.Consistent := by
  induction h with
  | refl => exact hst
  | tail _ step ih =>
    obtain ⟨c, s, step⟩ := step
    exact step.consistent ih

end Run

/-- A caller who waits is never stuck. -/
theorem exists_step (waits : st.waiting c = some s) :
    ∃ st', st.Step c s st' ∧ st'.waiting c = none := by
  cases hinsert : st.table.insert s with
  | ok r => exact ⟨_, .added waits hinsert, Function.update_self ..⟩
  | error full => exact ⟨_, .refused waits hinsert, Function.update_self ..⟩

theorem mem_interned {t : String} : t ∈ st.interned ↔ t = "" ∨ ∃ x, st.Returned t x := by
  rw [interned, List.mem_cons, List.mem_filterMap]
  refine or_congr_right ⟨?_, ?_⟩
  · rintro ⟨⟨u, r⟩, hmem, hr⟩
    cases r with
    | ok x =>
      cases hr
      exact ⟨x, hmem⟩
    | error full => cases hr
  · rintro ⟨x, hx⟩
    exact ⟨_, hx, rfl⟩

namespace Consistent

variable (hst : st.Consistent)
include hst

theorem find?_of_returned (h : st.Returned s x) : st.table.find? s = some x :=
  (hst.names s x).mpr (.inl h)

theorem mem_texts_iff {t : String} : t ∈ st.table.names.texts.toList ↔ t ∈ st.interned := by
  rw [hst.sound.mem_texts_iff, mem_interned]
  constructor
  · rintro ⟨x, hx⟩
    rcases (hst.names t x).mp hx with hreturned | ⟨rfl, -⟩
    · exact .inr ⟨x, hreturned⟩
    · exact .inl rfl
  · rintro (rfl | ⟨x, hx⟩)
    · exact ⟨_, hst.sound.find?_empty⟩
    · exact ⟨x, hst.find?_of_returned hx⟩

/-- **There are as many texts in the table as have been interned.** -/
theorem size_eq : st.table.names.size = st.interned.dedup.length := by
  have hperm : st.table.names.texts.toList.Perm st.interned.dedup := by
    refine (List.perm_ext_iff_of_nodup hst.sound.nodup (List.nodup_dedup _)).mpr fun t => ?_
    rw [hst.mem_texts_iff, List.mem_dedup]
  exact hperm.length_eq

/-- **The positions in use are those of the names that calls have given**, and the first one. -/
theorem lt_size_iff (i : Nat) :
    i < st.table.names.size ↔ i = 0 ∨ ∃ s, st.Returned s ⟨i⟩ := by
  constructor
  · intro hlt
    have hfound : st.table.find? st.table.names.texts[i] = some ⟨i⟩ :=
      hst.sound.find?_iff.mpr (Array.getElem?_eq_getElem hlt)
    rcases (hst.names _ _).mp hfound with hreturned | ⟨-, hempty⟩
    · exact .inr ⟨_, hreturned⟩
    · exact .inl (congrArg Name.index hempty)
  · rintro (rfl | ⟨s, hs⟩)
    · exact (Array.getElem?_eq_some_iff.mp hst.sound.first).1
    · have htext := hst.sound.find?_iff.mp (hst.find?_of_returned hs)
      exact (Array.getElem?_eq_some_iff.mp htext).1

/-- As long as there is room for all texts that are asked for, no call fails. -/
theorem not_failed (hroom : st.asked.dedup.length ≤ NameTable.capacity) (full : TableFull) :
    (s, .error full) ∉ st.finished := by
  intro hmem
  obtain ⟨-, hsize, habsent⟩ := hst.failed s full hmem
  -- The text that was refused and those in the table were all asked for.
  have hnew : s ∉ st.table.names.texts.toList := by
    rw [hst.sound.mem_texts_iff, habsent]
    exact nofun
  have hsubset : s :: st.table.names.texts.toList ⊆ st.asked.dedup := by
    intro t ht
    rw [List.mem_dedup, asked, List.mem_cons, List.mem_map]
    rcases List.mem_cons.mp ht with rfl | ht
    · exact .inr ⟨_, hmem, rfl⟩
    · rcases mem_interned.mp (hst.mem_texts_iff.mp ht) with rfl | ⟨x, hx⟩
      · exact .inl rfl
      · exact .inr ⟨_, hx, rfl⟩
  have hle := (List.subperm_of_subset (hst.sound.nodup.cons hnew) hsubset).length_le
  rw [List.length_cons, Array.length_toList] at hle
  rw [NameTable.size] at hsize
  omega

end Consistent
end Callers

/-- **Interning is one to one, in whatever order callers take their steps.**  Two calls have given
the same name just if they were for the same text.  A name keeps its text at all times, and the
empty text has the first one.  The positions in use are those of the names given, without a gap, and
they are as many as the texts interned.  A step of a call for a text that is in the table ends the
call with the text's name and leaves the table alone, and so does one that fails because there is no
position left; as long as there is room for all texts asked for, no call fails.  A caller who waits
is never stuck. -/
theorem interning_one_to_one {st : Callers} (h : Callers.Run .start st) :
    (∀ s t x y, st.Returned s x → st.Returned t y → (x = y ↔ s = t)) ∧
    (∀ s x, st.Returned s x → ∀ st', Callers.Run st st' → st'.table.names.resolve x = s) ∧
    (∀ s x, st.table.find? s = some x ↔ st.Returned s x ∨ s = "" ∧ x = .empty) ∧
    (∀ x, st.Returned "" x → x = .empty) ∧
    (∀ i, i < st.table.names.size ↔ i = 0 ∨ ∃ s, st.Returned s ⟨i⟩) ∧
    st.table.names.size = st.interned.dedup.length ∧
    (∀ c s x st', st.table.find? s = some x → st.Step c s st' →
      st'.table = st.table ∧ st'.finished = (s, .ok x) :: st.finished) ∧
    (∀ c s st', st.table.names.size = NameTable.capacity → st.table.find? s = none →
      st.Step c s st' → st'.table = st.table ∧ (st.waiting c = some s →
        st'.finished = (s, .error ⟨NameTable.capacity⟩) :: st.finished)) ∧
    (st.asked.dedup.length ≤ NameTable.capacity → ∀ s full, (s, .error full) ∉ st.finished) ∧
    ∀ c s, st.waiting c = some s → ∃ st', st.Step c s st' ∧ st'.waiting c = none := by
  have hst := h.consistent Callers.start_consistent
  refine ⟨?unique, ?stable, hst.names, ?empty, hst.lt_size_iff, hst.size_eq, ?present, ?full,
    fun hroom s => hst.not_failed hroom, fun c s => Callers.exists_step⟩
  case unique =>
    intro s t x y hx hy
    exact hst.sound.name_eq_iff (hst.find?_of_returned hx) (hst.find?_of_returned hy)
  case stable =>
    intro s x hx st' hlater
    exact (hlater.consistent hst).sound.resolve (hlater.find?_mono (hst.find?_of_returned hx))
  case empty =>
    intro x hx
    have hfound := hst.find?_of_returned hx
    rw [hst.sound.find?_empty] at hfound
    exact (Option.some.inj hfound).symm
  case present =>
    intro c s x st' hfound hstep
    cases hstep.effect with
    | @present y found table finished =>
      rw [hfound] at found
      cases found
      exact ⟨table, finished⟩
    | missed idle absent | fresh absent | full absent =>
      rw [hfound] at absent
      cases absent
  case full =>
    intro c s st' hsize habsent hstep
    cases hstep.effect with
    | present found =>
      rw [habsent] at found
      cases found
    | missed idle absent table =>
      refine ⟨table, fun hwaits => ?_⟩
      rw [idle] at hwaits
      cases hwaits
    | fresh absent room =>
      rw [hsize] at room
      exact absurd room (Nat.lt_irrefl _)
    | full absent noRoom table finished =>
      rw [hsize] at finished
      exact ⟨table, fun _ => finished⟩

/-- Two callers look the same text up before either has added it, and a third one comes later. -/
theorem race_for_one_name :
    ∃ st, Callers.Run .start st ∧
      st.finished = [("b", .ok ⟨2⟩), ("a", .ok ⟨1⟩), ("a", .ok ⟨1⟩)] ∧
      (∀ st', Callers.Run st st' → st'.table.names.resolve ⟨1⟩ = "a") ∧
      ¬ st.Returned "b" ⟨1⟩ ∧ st.table.names.size = 3 ∧ st.interned.dedup.length = 3 := by
  have first : Callers.Run .start _ := .single ⟨0, "a", .missed rfl rfl⟩
  have second : Callers.Run .start _ := .tail first ⟨1, "a", .missed rfl rfl⟩
  have added : Callers.Run .start _ := .tail second ⟨1, "a", .added rfl rfl⟩
  have late : Callers.Run .start _ := .tail added ⟨0, "a", .added rfl rfl⟩
  have third : Callers.Run .start _ := .tail late ⟨2, "b", .missed rfl rfl⟩
  have last : Callers.Run .start _ := .tail third ⟨2, "b", .added rfl rfl⟩
  obtain ⟨hunique, hstable, -, -, -, hsize, -⟩ := interning_one_to_one last
  refine ⟨_, last, rfl, hstable _ _ ?_, fun hb => ?_, rfl, hsize.symm⟩
  · exact List.mem_cons_of_mem _ List.mem_cons_self
  · have heq := (hunique "a" "b" _ _ (List.mem_cons_of_mem _ List.mem_cons_self) hb).mp rfl
    revert heq
    decide

end CapLang
