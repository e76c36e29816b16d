import CapLang.Literal
import Mathlib

/-!
# Where numbers and quoted texts end

What is written one after the other can be told apart again if each piece shows where it ends.  A
number ends where a character follows that no number has (`integerText_append_inj`).  A quoted text
ends by itself, at the first quote that is not escaped (`Quoted.encode_append_inj`): the escape of a
character can be read off the front of a text, whatever comes after it (`Quoted.readChar?_escape`),
and it never starts with a quote.
-/
namespace CapLang

/-! ## Characters of one class -/

/-- The text does not start with a character of the class. -/
def StartsOutside (p : Char → Bool) (rest : List Char) : Prop := ∀ c ∈ rest.head?, ¬ p c

theorem startsOutside_nil (p : Char → Bool) : StartsOutside p [] := nofun

theorem startsOutside_cons {p : Char → Bool} {c : Char} {rest : List Char} :
    StartsOutside p (c :: rest) ↔ ¬ p c := by
  simp [StartsOutside]

/-- **Characters of one class end where the text starts that is outside it.** -/
theorem append_inj_of_class {p : Char → Bool} {a b r s : List Char} (ha : ∀ c ∈ a, p c)
    (hb : ∀ c ∈ b, p c) (hr : StartsOutside p r) (hs : StartsOutside p s)
    (h : a ++ r = b ++ s) : a = b ∧ r = s := by
  have hnone {rest : List Char} (hrest : StartsOutside p rest) : rest.takeWhile p = [] := by
    rcases rest with - | ⟨c, rest⟩
    · rfl
    · exact List.takeWhile_cons_of_neg (startsOutside_cons.mp hrest)
  have hwhile := congrArg (List.takeWhile p) h
  rw [List.takeWhile_append_of_pos ha, List.takeWhile_append_of_pos hb, hnone hr, hnone hs,
    List.append_nil, List.append_nil] at hwhile
  subst hwhile
  exact ⟨rfl, List.append_cancel_left h⟩

/-! ## Numbers -/

/-- A character that integers are written with. -/
def isNumeral (c : Char) : Bool := c.isDigit || c == '-'

theorem isNumeral_of_mem_integerText {n : Int64} {c : Char} (h : c ∈ (integerText n).toList) :
    isNumeral c := by
  have hdigit {m : Nat} (hm : c ∈ m.repr.toList) : isNumeral c := by
    rw [Nat.repr_eq_ofList_toDigits, String.toList_ofList] at hm
    rw [isNumeral, Nat.isDigit_of_mem_toDigits (by decide) (by decide) hm, Bool.true_or]
  have hrepr : integerText n = n.toInt.repr := rfl
  rw [hrepr, Int.repr_eq_if] at h
  split at h
  · exact hdigit h
  · rw [String.toList_append, List.mem_append] at h
    rcases h with h | h
    · obtain rfl : c = '-' := by simpa using h
      rfl
    · exact hdigit h

theorem integerText_ne_nil (n : Int64) : (integerText n).toList ≠ [] := by
  have hrepr : integerText n = n.toInt.repr := rfl
  rw [hrepr, Int.repr_eq_if]
  split
  · rw [Nat.repr_eq_ofList_toDigits, String.toList_ofList]
    exact Nat.toDigits_ne_nil
  · simp

theorem integerText_inj {m n : Int64} : integerText m = integerText n ↔ m = n := by
  show m.toInt.repr = n.toInt.repr ↔ m = n
  rw [Int.repr_inj, Int64.toInt_inj]

/-- **A number ends where no further character belongs to it.** -/
theorem integerText_append_inj {m n : Int64} {r s : List Char} (hr : StartsOutside isNumeral r)
    (hs : StartsOutside isNumeral s)
    (h : (integerText m).toList ++ r = (integerText n).toList ++ s) : m = n ∧ r = s := by
  obtain ⟨htext, hrest⟩ := append_inj_of_class (fun _ => isNumeral_of_mem_integerText)
    (fun _ => isNumeral_of_mem_integerText) hr hs h
  exact ⟨integerText_inj.mp (String.toList_inj.mp htext), hrest⟩

/-! ## Quoted texts -/

namespace Quoted

/-- The value of a hexadecimal digit, lower case. -/
def digitValue (c : Char) : Nat :=
  if c.isDigit then c.toNat - '0'.toNat else c.toNat - 'a'.toNat + 10

/-- The number that hexadecimal digits stand for. -/
def hexValue (digits : List Char) : Nat := digits.foldl (fun n c => 16 * n + digitValue c) 0

theorem digitValue_digitChar : ∀ d < 16, digitValue (Nat.digitChar d) = d := by decide

theorem hexValue_toDigits (n : Nat) : hexValue (Nat.toDigits 16 n) = n := by
  induction n using Nat.strongRecOn with
  | ind n ih =>
    rcases Nat.lt_or_ge n 16 with hn | hn
    · rw [Nat.toDigits_of_lt_base hn]
      simp [hexValue, digitValue_digitChar n hn]
    · have hlast := digitValue_digitChar (n % 16) (Nat.mod_lt n (by decide))
      have hrest := ih (n / 16) (by omega)
      rw [hexValue] at hrest
      rw [Nat.toDigits_of_base_le (by decide) hn, hexValue, List.foldl_append, hrest]
      simp only [List.foldl_cons, List.foldl_nil, hlast]
      omega

theorem ne_brace_of_mem_toDigits {n : Nat} : ∀ c ∈ Nat.toDigits 16 n, c ≠ '\x7d' := by
  have hdigit : ∀ d < 16, Nat.digitChar d ≠ '\x7d' := by decide
  induction n using Nat.strongRecOn with
  | ind n ih =>
    intro c hc
    rcases Nat.lt_or_ge n 16 with hn | hn
    · rw [Nat.toDigits_of_lt_base hn, List.mem_singleton] at hc
      rw [hc]
      exact hdigit n hn
    · rw [Nat.toDigits_of_base_le (by decide) hn, List.mem_append, List.mem_singleton] at hc
      rcases hc with hc | rfl
      · exact ih (n / 16) (by omega) c hc
      · exact hdigit (n % 16) (Nat.mod_lt n (by decide))

/-- The characters that have escapes of their own, after the letter that escapes them. -/
def shortForms : List (Char × Char) :=
  [('"', '"'), ('\\', '\\'), ('t', '\t'), ('r', '\r'), ('n', '\n'), ('0', '\x00')]

/-- Reads one character, escaped or not, off the front of a text. -/
def readChar? : List Char → Option (Char × List Char)
  | '\\' :: 'u' :: '\x7b' :: cs =>
    some (Char.ofNat (hexValue (cs.takeWhile (· ≠ '\x7d'))), (cs.dropWhile (· ≠ '\x7d')).tail)
  | '\\' :: e :: cs => (shortForms.lookup e).map fun c => (c, cs)
  | c :: cs => some (c, cs)
  | [] => none

theorem readChar?_unescaped {c : Char} (hc : c ≠ '\\') (rest : List Char) :
    readChar? (c :: rest) = some (c, rest) := by
  unfold readChar?
  split
  · next h => exact absurd (List.cons.inj h).1 hc
  · next h => exact absurd (List.cons.inj h).1 hc
  · next h =>
    obtain ⟨rfl, rfl⟩ := List.cons.inj h
    rfl
  · next h => cases h

theorem readChar?_hexadecimal (n : Nat) (rest : List Char) :
    readChar? ('\\' :: 'u' :: '\x7b' :: (Nat.toDigits 16 n ++ '\x7d' :: rest)) =
      some (Char.ofNat n, rest) := by
  have hdigits : ∀ c ∈ Nat.toDigits 16 n, decide (c ≠ '\x7d') = true :=
    fun c hc => decide_eq_true (ne_brace_of_mem_toDigits c hc)
  rw [readChar?, List.takeWhile_append_of_pos hdigits, List.dropWhile_append_of_pos hdigits,
    List.takeWhile_cons_of_neg (by decide), List.dropWhile_cons_of_neg (by decide),
    List.append_nil, hexValue_toDigits, List.tail_cons]

/-- **The escape of a character can be read back**, whatever follows it. -/
theorem readChar?_escape (c : Char) (rest : List Char) :
    readChar? (escape c ++ rest) = some (c, rest) := by
  unfold escape
  split_ifs with hquote hbackslash htab hreturn hline hnull hprintable
  · rw [hquote]
    rfl
  · rw [hbackslash]
    rfl
  · rw [htab]
    rfl
  · rw [hreturn]
    rfl
  · rw [hline]
    rfl
  · rw [hnull]
    rfl
  · exact readChar?_unescaped hbackslash rest
  · have hread := readChar?_hexadecimal c.toNat rest
    rw [Char.ofNat_toNat] at hread
    simpa using hread

theorem escape_append_inj {c d : Char} {r s : List Char} (h : escape c ++ r = escape d ++ s) :
    c = d ∧ r = s := by
  have hread := congrArg readChar? h
  rw [readChar?_escape, readChar?_escape] at hread
  exact Prod.mk.inj (Option.some.inj hread)

theorem escape_append_ne_quote (c : Char) (r s : List Char) : escape c ++ r ≠ '"' :: s := by
  unfold escape
  split_ifs with hquote <;> simp [*]

/-- The characters between the quotes end at the first quote that is not escaped. -/
theorem flatMap_escape_append_inj {s t r r' : List Char}
    (h : s.flatMap escape ++ '"' :: r = t.flatMap escape ++ '"' :: r') : s = t ∧ r = r' := by
  induction s generalizing t with
  | nil =>
    rcases t with - | ⟨d, t⟩
    · exact ⟨rfl, (List.cons.inj h).2⟩
    · rw [List.flatMap_cons, List.append_assoc] at h
      exact absurd h.symm (escape_append_ne_quote d _ _)
  | cons c s ih =>
    rcases t with - | ⟨d, t⟩
    · rw [List.flatMap_cons, List.append_assoc] at h
      exact absurd h (escape_append_ne_quote c _ _)
    · rw [List.flatMap_cons, List.flatMap_cons, List.append_assoc, List.append_assoc] at h
      obtain ⟨rfl, hrest⟩ := escape_append_inj h
      obtain ⟨rfl, hr⟩ := ih hrest
      exact ⟨rfl, hr⟩

/-- **A quoted text ends by itself**, whatever it quotes. -/
theorem encode_append_inj {s t r r' : List Char} (h : encode s ++ r = encode t ++ r') :
    s = t ∧ r = r' := by
  simp only [encode, List.cons_append, List.append_assoc, List.nil_append, List.cons.injEq,
    true_and] at h
  exact flatMap_escape_append_inj h

end Quoted

theorem quoted_append_inj {s t : String} {r r' : List Char}
    (h : (quoted s).toList ++ r = (quoted t).toList ++ r') : s = t ∧ r = r' := by
  rw [quoted, quoted, String.toList_ofList, String.toList_ofList] at h
  obtain ⟨htext, hrest⟩ := Quoted.encode_append_inj h
  exact ⟨String.toList_inj.mp htext, hrest⟩

end CapLang
