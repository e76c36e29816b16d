import CapLang.Proofs.Arithmetic

/-!
# Suffixes of texts

The operators on texts share one notion of position: a text is a sequence of characters, whatever
their size in bytes, and the position of a character is the number of those before it.  So the
length of a text is the last position that a suffix can start at, and it is where the second of two
concatenated texts starts.  A suffix of a suffix starts at the sum of both positions.
-/
namespace CapLang

/-- The first characters of a text. -/
def firstChars (s : String) (n : Nat) : String := String.ofList (s.toList.take n)

/-- The text without its first characters. -/
def charsFrom (s : String) (n : Nat) : String := String.ofList (s.toList.drop n)

@[simp] theorem length_charsFrom (s : String) (n : Nat) :
    (charsFrom s n).length = s.length - n := by
  rw [charsFrom, String.length_ofList, List.length_drop, String.length_toList]

theorem firstChars_append_charsFrom (s : String) (n : Nat) :
    firstChars s n ++ charsFrom s n = s := by
  rw [firstChars, charsFrom, ← String.ofList_append, List.take_append_drop, String.ofList_toList]

theorem charsFrom_append_length (s t : String) : charsFrom (s ++ t) s.length = t := by
  rw [charsFrom, String.toList_append, ← String.length_toList, List.drop_left,
    String.ofList_toList]

theorem charsFrom_charsFrom (s : String) (m n : Nat) :
    charsFrom (charsFrom s m) n = charsFrom s (m + n) := by
  rw [charsFrom, charsFrom, String.toList_ofList, List.drop_drop, charsFrom]

namespace Operator

/-- **A suffix starts at any position up to the length.** -/
theorem suffix_eq_ok_iff {s : String} {i : Int64} {v : Value} :
    suffix s i = .ok v ↔ ∃ n : Nat, i.toInt = n ∧ n ≤ s.length ∧ v = .str (charsFrom s n) := by
  constructor
  · intro h
    by_cases hbounds : 0 ≤ i.toInt ∧ i.toInt ≤ s.length
    · rw [suffix, if_pos hbounds] at h
      obtain rfl := Except.ok.inj h
      exact ⟨i.toInt.toNat, by omega, by omega, rfl⟩
    · rw [suffix, if_neg hbounds] at h
      cases h
  · rintro ⟨n, hi, hn, rfl⟩
    have hbounds : 0 ≤ i.toInt ∧ i.toInt ≤ s.length := by omega
    rw [suffix, if_pos hbounds, hi]
    rfl

theorem exists_suffix_iff {s : String} {i : Int64} :
    (∃ v, suffix s i = .ok v) ↔ 0 ≤ i.toInt ∧ i.toInt ≤ s.length := by
  constructor
  · rintro ⟨v, hv⟩
    obtain ⟨n, hi, hn, -⟩ := suffix_eq_ok_iff.mp hv
    omega
  · intro hbounds
    exact ⟨_, suffix_eq_ok_iff.mpr ⟨i.toInt.toNat, by omega, by omega, rfl⟩⟩

/-- **The suffix of a suffix** is the one from the sum of both positions.  The sum fits 64 bits if
either is there, since it is no more than the length. -/
theorem suffix_suffix_iff {s : String} {size i j : Int64} {v : Value}
    (hsize : size.toInt = s.length) (hi : 0 ≤ i.toInt) (hj : 0 ≤ j.toInt) :
    (∃ u, suffix s i = .ok (.str u) ∧ suffix u j = .ok v) ↔
      ∃ k : Int64, k.toInt = i.toInt + j.toInt ∧ suffix s k = .ok v := by
  constructor
  · rintro ⟨u, hu, hv⟩
    obtain ⟨m, him, hm, hum⟩ := suffix_eq_ok_iff.mp hu
    obtain rfl := Value.str.inj hum
    obtain ⟨n, hjn, hn, rfl⟩ := suffix_eq_ok_iff.mp hv
    rw [length_charsFrom] at hn
    have hlimit := size.toInt_lt
    obtain ⟨k, -, hk⟩ := Checked.ofInt?_of_inRange (n := i.toInt + j.toInt) ⟨by omega, by omega⟩
    refine ⟨k, hk, suffix_eq_ok_iff.mpr ⟨m + n, by omega, by omega, ?_⟩⟩
    rw [charsFrom_charsFrom]
  · rintro ⟨k, hk, hv⟩
    obtain ⟨n, hkn, hn, rfl⟩ := suffix_eq_ok_iff.mp hv
    obtain ⟨m, him⟩ : ∃ m : Nat, i.toInt = m := ⟨i.toInt.toNat, by omega⟩
    refine ⟨charsFrom s m, suffix_eq_ok_iff.mpr ⟨m, him, by omega, rfl⟩, ?_⟩
    refine suffix_eq_ok_iff.mpr ⟨n - m, by omega, ?_, ?_⟩
    · rw [length_charsFrom]
      omega
    · rw [charsFrom_charsFrom, Nat.add_sub_cancel' (by omega)]

theorem exact_ofInt?_eq_ok_iff {operation : String} {n : Int} {v : Value} :
    exact operation (Checked.ofInt? n) = .ok v ↔ ∃ r : Int64, r.toInt = n ∧ v = .int r := by
  simp only [← Checked.ofInt?_eq_some_iff]
  cases Checked.ofInt? n <;> simp [exact, eq_comm]

end Operator

theorem bind_eq_ok_iff {ε α β : Type} {x : Except ε α} {f : α → Except ε β} {b : β} :
    x >>= f = .ok b ↔ ∃ a, x = .ok a ∧ f a = .ok b := by
  cases x with
  | ok a =>
    show f a = .ok b ↔ _
    simp
  | error e => exact iff_of_false nofun (by simp)

/-- **Texts are sequences of characters for all operators on them.**  Their length is the number of
characters, which fits 64 bits for every text that a memory has room for.  There is a suffix from
each position up to the length and from no other; it is as much shorter as its position says, and
the characters before it make it up to the text again.  Concatenation adds lengths, and the second
text starts at the length of the first.  The suffix of a suffix is the one from the sum of both
positions, if either is there. -/
theorem texts_are_sequences (cx : Context) (w : World) (s t : String) (i j : Int64) :
    let answer (op : Operator) (args : List Value) := (op.apply cx args w).1
    let length (v : Value) := answer .strLength [v]
    let suffix (v : Value) (k : Value) := answer .strSubstr [v, k]
    ExactOrOverflow (length (.str s)) "string length" s.length ∧
    ((∃ v, suffix (.str s) (.int i) = .ok v) ↔ 0 ≤ i.toInt ∧ i.toInt ≤ s.length) ∧
    (¬ (0 ≤ i.toInt ∧ i.toInt ≤ s.length) →
      suffix (.str s) (.int i) = .error (.ofCause (.indexOutOfBounds i.toInt s.length))) ∧
    (∀ v, suffix (.str s) (.int i) = .ok v →
      ExactOrOverflow (length v) "string length" (s.length - i.toInt) ∧
      answer .strConcat [.str (firstChars s i.toInt.toNat), v] = .ok (.str s)) ∧
    (∃ st, answer .strConcat [.str s, .str t] = .ok st ∧
      ExactOrOverflow (length st) "string length" (s.length + t.length) ∧
      ∀ n, length (.str s) = .ok n →
        ∃ v, suffix st n = .ok v ∧ answer .equal [v, .str t] = .ok (.bool true)) ∧
    (0 ≤ i.toInt → 0 ≤ j.toInt → (∃ n, length (.str s) = .ok n) →
      ∀ v, (suffix (.str s) (.int i) >>= fun u => suffix u (.int j)) = .ok v ↔
        (answer .intAdd [.int i, .int j] >>= fun k => suffix (.str s) k) = .ok v) := by
  intro answer length suffix
  have hlength (u : String) :
      length (.str u) = (Operator.exact "string length" (Checked.ofInt? u.length)).mapError
        Fault.ofCause := rfl
  have hsuffix (u : String) (k : Int64) :
      suffix (.str u) (.int k) = (Operator.suffix u k).mapError Fault.ofCause := rfl
  have hcounted (u : String) (n : Int) (hn : (u.length : Int) = n) :
      ExactOrOverflow (length (.str u)) "string length" n := by
    rw [← hn]
    exact Operator.exact_exactOrOverflow "string length" u.length
  refine ⟨hcounted s _ rfl, ?found, ?missing, ?rest, ?concatenation, ?twice⟩
  case found =>
    simp only [hsuffix, Operator.mapError_eq_ok_iff]
    exact Operator.exists_suffix_iff
  case missing =>
    intro hbounds
    rw [hsuffix, Operator.mapError_eq_error_iff]
    exact if_neg hbounds
  case rest =>
    intro v hv
    rw [hsuffix, Operator.mapError_eq_ok_iff, Operator.suffix_eq_ok_iff] at hv
    obtain ⟨n, hi, hn, rfl⟩ := hv
    refine ⟨hcounted _ _ ?_, ?_⟩
    · rw [length_charsFrom]
      omega
    · rw [hi]
      exact congrArg (fun u => Except.ok (Value.str u)) (firstChars_append_charsFrom s n)
  case concatenation =>
    refine ⟨.str (s ++ t), rfl, hcounted _ _ ?_, ?_⟩
    · rw [String.length_append]
      omega
    · intro n hn
      rw [hlength, Operator.mapError_eq_ok_iff, Operator.exact_ofInt?_eq_ok_iff] at hn
      obtain ⟨k, hk, rfl⟩ := hn
      refine ⟨.str t, ?_, ?_⟩
      · rw [hsuffix, Operator.mapError_eq_ok_iff, Operator.suffix_eq_ok_iff]
        refine ⟨s.length, hk, ?_, ?_⟩
        · rw [String.length_append]
          omega
        · rw [charsFrom_append_length]
      · show Except.ok (Value.bool (t == t)) = _
        rw [beq_self_eq_true]
  case twice =>
    rintro hi hj ⟨n, hn⟩ v
    rw [hlength, Operator.mapError_eq_ok_iff, Operator.exact_ofInt?_eq_ok_iff] at hn
    obtain ⟨size, hsize, -⟩ := hn
    have hsum (u : Value) : answer .intAdd [.int i, .int j] = .ok u ↔
        ∃ k : Int64, k.toInt = i.toInt + j.toInt ∧ u = .int k :=
      Operator.mapError_eq_ok_iff.trans Operator.exact_ofInt?_eq_ok_iff
    have htwice := Operator.suffix_suffix_iff (v := v) hsize hi hj
    rw [bind_eq_ok_iff, bind_eq_ok_iff]
    constructor
    · rintro ⟨u, hu, hv⟩
      rw [hsuffix, Operator.mapError_eq_ok_iff] at hu
      obtain ⟨m, -, -, rfl⟩ := Operator.suffix_eq_ok_iff.mp hu
      rw [hsuffix, Operator.mapError_eq_ok_iff] at hv
      obtain ⟨k, hk, honce⟩ := htwice.mp ⟨_, hu, hv⟩
      exact ⟨.int k, (hsum _).mpr ⟨k, hk, rfl⟩, Operator.mapError_eq_ok_iff.mpr honce⟩
    · rintro ⟨u, hu, hv⟩
      obtain ⟨k, hk, rfl⟩ := (hsum u).mp hu
      rw [hsuffix, Operator.mapError_eq_ok_iff] at hv
      obtain ⟨u, hu, htwo⟩ := htwice.mpr ⟨k, hk, hv⟩
      exact ⟨.str u, Operator.mapError_eq_ok_iff.mpr hu, Operator.mapError_eq_ok_iff.mpr htwo⟩

/-- A text with a mark on its first letter and with a character of three bytes, cut twice. -/
theorem marked_text_cut :
    let cx : Context := ⟨.initial, .empty, World.invoke⟩
    let w := World.ofInput ByteArray.empty
    let answer (op : Operator) (args : List Value) := (op.apply cx args w).1
    let s := "e\u0301日x"
    ¬ (0 ≤ (-1 : Int64).toInt ∧ (-1 : Int64).toInt ≤ s.length) ∧
      answer .strSubstr [.str s, .int (-1)] = .error (.ofCause (.indexOutOfBounds (-1) 4)) ∧
      (0 ≤ (1 : Int64).toInt ∧ 0 ≤ (2 : Int64).toInt ∧
        ∃ n, answer .strLength [.str s] = .ok n) ∧
      (answer .strSubstr [.str s, .int 1] >>= fun u => answer .strSubstr [u, .int 2]) =
        .ok (.str "x") := by
  intro cx w answer s
  have hsize : s.length = 4 := by decide
  have hbounds : ¬ (0 ≤ (-1 : Int64).toInt ∧ (-1 : Int64).toInt ≤ s.length) := by decide
  obtain ⟨hcounted, -, hmissing, -⟩ := texts_are_sequences cx w s "" (-1) 0
  obtain ⟨-, -, -, -, -, htwice⟩ := texts_are_sequences cx w s "" 1 2
  rw [hsize] at hcounted
  have hlength : ∃ n, answer .strLength [.str s] = .ok n := by
    obtain ⟨n, -, hn⟩ := hcounted.1 ⟨by decide, by decide⟩
    exact ⟨.int n, hn⟩
  have honce : answer .strSubstr [.str s, .int 3] = .ok (.str "x") := by
    have hrest : charsFrom s 3 = "x" := by decide
    show (Operator.suffix s 3).mapError Fault.ofCause = _
    rw [Operator.mapError_eq_ok_iff, Operator.suffix_eq_ok_iff]
    exact ⟨3, rfl, by decide, by rw [hrest]⟩
  have hrefused : answer .strSubstr [.str s, .int (-1)] =
      .error (.ofCause (.indexOutOfBounds (-1) 4)) := by
    rw [← hsize]
    exact hmissing hbounds
  refine ⟨hbounds, hrefused, ⟨by decide, by decide, hlength⟩, ?_⟩
  exact (htwice (by decide) (by decide) hlength (.str "x")).mpr honce

end CapLang
