import CapLang.Diagnostic.Render

/-!
# Renderings of a diagnostic

A diagnostic is written with colours, without them, or as a message of its own that knows no source.
All of them carry the same text.  Colours add control sequences around a few words and nothing else,
so what is left without the sequences is the rendering without colours (`Diagnostic.emit_shows`);
this can be read off piece by piece, because a sequence ends by itself, whatever follows it
(`Shows`).  The message of its own puts a line end before each further line, where renderings put
one after each line, so they differ by the last one (`Diagnostic.render_none`).
-/
namespace CapLang

/-! ## Control sequences -/

/-- A character that may stand between the start of a control sequence and its last letter. -/
def isParameter (c : Char) : Bool := c.isDigit || c == ';'

/-- What follows a control sequence for a style, if the text starts with one: an escape character
and a bracket, parameters, and the letter that makes it one for a style. -/
def afterSequence? : List Char → Option (List Char)
  | '\x1b' :: '[' :: cs =>
    match cs.dropWhile isParameter with
    | 'm' :: rest => some rest
    | _ => none
  | _ => none

theorem length_afterSequence? {cs rest : List Char} (h : afterSequence? cs = some rest) :
    rest.length < cs.length := by
  unfold afterSequence? at h
  split at h
  · next cs =>
    split at h
    · next rest' hdrop =>
      obtain rfl := Option.some.inj h
      have hle := (List.dropWhile_suffix isParameter (l := cs)).length_le
      rw [hdrop, List.length_cons] at hle
      simp only [List.length_cons]
      omega
    · cases h
  · cases h

/-- **The text without its control sequences** for styles. -/
def withoutSequences : List Char → List Char
  | [] => []
  | c :: cs =>
    match _h : afterSequence? (c :: cs) with
    | some rest => withoutSequences rest
    | none => c :: withoutSequences cs
termination_by cs => cs.length
decreasing_by
  · exact length_afterSequence? _h
  · exact Nat.lt_succ_self _

theorem withoutSequences_cons {c : Char} (hc : c ≠ '\x1b') (cs : List Char) :
    withoutSequences (c :: cs) = c :: withoutSequences cs := by
  have hnone : afterSequence? (c :: cs) = none := by
    unfold afterSequence?
    split
    · next heq => exact absurd (List.cons.inj heq).1 hc
    · rfl
  rw [withoutSequences]
  split
  · next h => rw [hnone] at h; cases h
  · rfl

theorem withoutSequences_sequence {params : List Char} (hparams : params.all isParameter)
    (rest : List Char) :
    withoutSequences ('\x1b' :: '[' :: (params ++ 'm' :: rest)) = withoutSequences rest := by
  have hsome : afterSequence? ('\x1b' :: '[' :: (params ++ 'm' :: rest)) = some rest := by
    have hm : ¬ isParameter 'm' := by decide
    rw [afterSequence?, List.dropWhile_append_of_pos (List.all_eq_true.mp hparams),
      List.dropWhile_cons_of_neg hm]
    rfl
  rw [withoutSequences]
  split
  · next h => rw [hsome] at h; cases h; rfl
  · next h => rw [hsome] at h; cases h

/-! ## Texts without escape characters -/

/-- No control sequence starts in the text. -/
def EscapeFree (s : String) : Prop := '\x1b' ∉ s.toList

instance (s : String) : Decidable (EscapeFree s) := inferInstanceAs (Decidable (_ ∉ _))

@[simp] theorem escapeFree_append {s t : String} :
    EscapeFree (s ++ t) ↔ EscapeFree s ∧ EscapeFree t := by
  simp only [EscapeFree, String.toList_append, List.mem_append, not_or]

@[simp] theorem escapeFree_number (n : Nat) : EscapeFree n.repr := by
  intro h
  rw [Nat.repr_eq_ofList_toDigits, String.toList_ofList] at h
  exact absurd (Nat.isDigit_of_mem_toDigits (by decide) (by decide) h) (by decide)

@[simp] theorem Severity.escapeFree_text (severity : Severity) : EscapeFree severity.text := by
  cases severity <;> decide

@[simp] theorem Span.escapeFree_text (span : Span) : EscapeFree span.text := by
  simp +decide [Span.text]

theorem Style.paint_false (style : Style) (s : String) : style.paint false s = s := rfl

namespace Diagnostic

@[simp] theorem Code.escapeFree_text (code : Code) : EscapeFree code.text := by
  simp +decide [Code.text]

@[simp] theorem Label.escapeFree_marker (l : Label) : EscapeFree l.marker := by
  unfold Label.marker
  split <;> decide

theorem escapeFree_location {source : Option IndexedSource} (h : ∀ s ∈ source, EscapeFree s.path)
    (span : Span) : EscapeFree (location source span) := by
  rcases source with - | s
  · exact span.escapeFree_text
  · have hpath := h s rfl
    simp +decide [location, IndexedSource.locate, hpath]

/-- No control sequence starts in the texts of the diagnostic. -/
structure IsEscapeFree (d : Diagnostic) : Prop where
  message : EscapeFree d.message
  labels : ∀ l ∈ d.labels, EscapeFree l.message
  notes : ∀ n ∈ d.notes, EscapeFree n
  suggestions : ∀ h ∈ d.suggestions, EscapeFree h

end Diagnostic

/-! ## What is left without control sequences -/

/-- **The first text shows as the second one**, whatever follows it. -/
def Shows (s t : String) : Prop :=
  ∀ rest, withoutSequences (s.toList ++ rest) = t.toList ++ withoutSequences rest

namespace Shows

variable {s s' t t' : String}

theorem eq (h : Shows s t) : withoutSequences s.toList = t.toList := by
  have hend := h []
  rwa [List.append_nil, withoutSequences, List.append_nil] at hend

theorem of_escapeFree (h : EscapeFree s) : Shows s s := by
  intro rest
  unfold EscapeFree at h
  generalize s.toList = cs at h ⊢
  induction cs with
  | nil => rfl
  | cons c cs ih =>
    rw [List.mem_cons, not_or] at h
    rw [List.cons_append, withoutSequences_cons (Ne.symm h.1), ih h.2, List.cons_append]

theorem append (h : Shows s t) (h' : Shows s' t') : Shows (s ++ s') (t ++ t') := by
  intro rest
  rw [String.toList_append, List.append_assoc, h, h', String.toList_append, List.append_assoc]

theorem join {α : Type} {xs : List α} {f g : α → String} (h : ∀ x ∈ xs, Shows (f x) (g x)) :
    Shows (String.join (xs.map f)) (String.join (xs.map g)) := by
  induction xs with
  | nil => exact of_escapeFree List.not_mem_nil
  | cons x xs ih =>
    rw [List.forall_mem_cons] at h
    rw [List.map_cons, List.map_cons, String.join_cons, String.join_cons]
    exact h.1.append (ih h.2)

/-- Colours show as nothing. -/
theorem paint (colors : Bool) (style : Style) (h : EscapeFree s) :
    Shows (style.paint colors s) (style.paint false s) := by
  cases colors with
  | false => exact of_escapeFree h
  | true =>
    obtain ⟨params, hparams, hstart⟩ : ∃ params, params.all isParameter ∧
        style.start.toList = '\x1b' :: '[' :: (params ++ ['m']) := by
      cases style
      · exact ⟨['1', ';', '3', '1'], rfl, rfl⟩
      · exact ⟨['1', ';', '3', '3'], rfl, rfl⟩
      · exact ⟨['1', ';', '3', '6'], rfl, rfl⟩
      · exact ⟨['1', ';', '3', '2'], rfl, rfl⟩
      · exact ⟨['1'], rfl, rfl⟩
    have hreset : Style.reset.toList = '\x1b' :: '[' :: (['0'] ++ ['m']) := rfl
    have hzero : ['0'].all isParameter := rfl
    intro rest
    show withoutSequences ((style.start ++ s ++ Style.reset).toList ++ rest) = _
    simp only [String.toList_append, List.append_assoc, hstart, hreset, List.cons_append,
      List.nil_append]
    rw [withoutSequences_sequence hparams, of_escapeFree h]
    exact congrArg _ (withoutSequences_sequence hzero rest)

end Shows

/-! ## Renderings -/

namespace Diagnostic

variable {d : Diagnostic}

/-- **Colours change nothing but control sequences.** -/
theorem emit_shows (colors : Bool) {source : Option IndexedSource}
    (hsource : ∀ s ∈ source, EscapeFree s.path) (hd : d.IsEscapeFree) :
    Shows (d.emit colors source) (d.emit false source) := by
  have hcode : EscapeFree ("[" ++ d.code.text ++ "]") := by simp +decide
  have hword : EscapeFree "note" ∧ EscapeFree "help" := by decide
  refine .append (.append (.append ?head (.join ?labels)) (.join ?notes)) (.join ?suggestions)
  case head =>
    have hrest : EscapeFree (": " ++ d.message ++ "\n") := by simp +decide [hd.message]
    have hpainted := ((Shows.paint colors d.severity.style d.severity.escapeFree_text).append
      (.paint colors .bold hcode)).append (.of_escapeFree hrest)
    simpa only [String.append_assoc] using hpainted
  case labels =>
    intro l hl
    refine .of_escapeFree ?_
    simp +decide [hd.labels l hl, escapeFree_location hsource l.span]
  case notes =>
    intro n hn
    have hrest : EscapeFree (": " ++ n ++ "\n") := by simp +decide [hd.notes n hn]
    have hpainted := ((Shows.of_escapeFree (s := "  = ") (by decide)).append
      (.paint colors .bold hword.1)).append (.of_escapeFree hrest)
    simpa only [String.append_assoc] using hpainted
  case suggestions =>
    intro n hn
    have hrest : EscapeFree (": " ++ n ++ "\n") := by simp +decide [hd.suggestions n hn]
    have hpainted := ((Shows.of_escapeFree (s := "  = ") (by decide)).append
      (.paint colors .help hword.2)).append (.of_escapeFree hrest)
    simpa only [String.append_assoc] using hpainted

/-! ## Line ends -/

/-- Lines that each end in a line end, after one that does, or lines that each start with one. -/
theorem join_lines {α : Type} (xs : List α) (f : α → String) (s : String) :
    "\n" ++ (String.join (xs.map fun x => f x ++ "\n") ++ s) =
      String.join (xs.map fun x => "\n" ++ f x) ++ ("\n" ++ s) := by
  induction xs with
  | nil => rfl
  | cons x xs ih =>
    simp only [List.map_cons, String.join_cons, String.append_assoc, ih]

/-- What the message of its own says after the first word and a bracket. -/
def afterBracket (d : Diagnostic) : String :=
  d.code.text ++ "]: " ++ d.message
    ++ String.join (d.labels.map fun l =>
        "\n  " ++ l.marker ++ " " ++ l.span.text ++ ": " ++ l.message)
    ++ String.join (d.notes.map fun n => "\n  = note: " ++ n)
    ++ String.join (d.suggestions.map fun h => "\n  = help: " ++ h)

theorem text_eq (d : Diagnostic) : d.text = d.severity.text ++ " [" ++ d.afterBracket := by
  simp only [text, afterBracket, String.append_assoc]

/-- **Without a source a rendering is the message of its own**, with no space after the first word
and with one more line end. -/
theorem render_none (d : Diagnostic) :
    d.render none = d.severity.text ++ "[" ++ d.afterBracket ++ "\n" := by
  have hlabels := join_lines d.labels fun l =>
    "  " ++ l.marker ++ " " ++ l.span.text ++ ": " ++ l.message
  have hnotes := join_lines d.notes fun n => "  = " ++ "note" ++ ": " ++ n
  have hsuggestions := join_lines d.suggestions (fun h => "  = " ++ "help" ++ ": " ++ h) ""
  have hbracket : "]: " = "]" ++ ": " := by decide
  have hlabel : "\n  " = "\n" ++ "  " := by decide
  have hnote : "\n  = note: " = "\n" ++ "  = " ++ "note" ++ ": " := by decide
  have hhelp : "\n  = help: " = "\n" ++ "  = " ++ "help" ++ ": " := by decide
  simp only [String.append_assoc, String.append_empty] at hlabels hnotes hsuggestions
  simp only [render, emit, afterBracket, location, Option.map_none, Style.paint_false, hbracket,
    hlabel, hnote, hhelp, String.append_assoc]
  rw [hlabels, hnotes, hsuggestions]

end Diagnostic

/-- **All renderings of diagnostics carry the same text.**  What is emitted with colours is, without
the control sequences, what is emitted with none, provided that no text brings an escape character
of its own.  Several diagnostics are emitted one after the other.  One that is emitted without
colours is rendered, and rendered without a source it is the message of its own, but for the space
after the first word and the line end at the end. -/
theorem renderings_agree (source : Option Source) (ds : List Diagnostic) (onTerminal : Bool) :
    let emitted (mode : ColorMode) (ds : List Diagnostic) : String :=
      Diagnostic.emitAll mode onTerminal source ds
    ((∀ s ∈ source, EscapeFree s.path) → (∀ d ∈ ds, d.IsEscapeFree) →
      withoutSequences (emitted .always ds).toList = (emitted .never ds).toList) ∧
    (∀ mode, emitted mode ds = String.join (ds.map fun d => emitted mode [d])) ∧
    (∀ d, emitted .never [d] = d.render source) ∧
    (∀ d : Diagnostic, ∃ rest, d.text = d.severity.text ++ " [" ++ rest ∧
      d.render none = d.severity.text ++ "[" ++ rest ++ "\n") := by
  intro emitted
  have hsingle (mode : ColorMode) (d : Diagnostic) : emitted mode [d] =
      d.emit (mode.colors onTerminal) (source.map Source.index) :=
    (String.join_cons ..).trans (String.append_empty ..)
  refine ⟨?colors, ?singly, ?rendered, fun d => ⟨_, d.text_eq, d.render_none⟩⟩
  case colors =>
    intro hsource hds
    refine Shows.eq (.join fun d hd => Diagnostic.emit_shows true ?_ (hds d hd))
    intro indexed hindexed
    obtain ⟨s, hs, rfl⟩ := Option.map_eq_some_iff.mp hindexed
    exact hsource s hs
  case singly =>
    intro mode
    rw [funext (hsingle mode)]
    rfl
  case rendered =>
    intro d
    exact hsingle .never d

/-- A message of two lines that looks like a control sequence without its escape character. -/
theorem bracketed_message_agrees :
    let source : Source := ⟨"p", "x\ny"⟩
    let here : Diagnostic.Label := ⟨⟨2, 3⟩, "here", true⟩
    let d : Diagnostic := ⟨.divisionByZero, .error, "a[0m\nb", [here], ["n"], ["h"]⟩
    let emitted (mode : ColorMode) : String := Diagnostic.emitAll mode false (some source) [d]
    EscapeFree source.path ∧ d.IsEscapeFree ∧ ¬ EscapeFree (emitted .always) ∧
      withoutSequences (emitted .always).toList = (emitted .never).toList ∧
      emitted .never =
        "error[E6001]: a[0m\nb\n  --> p:2:1: here\n  = note: n\n  = help: h\n" := by
  intro source here d emitted
  have hpath : EscapeFree source.path := by decide
  have hd : d.IsEscapeFree := ⟨by decide, by decide, by decide, by decide⟩
  obtain ⟨hcolors, -⟩ := renderings_agree (some source) [d] false
  refine ⟨hpath, hd, by decide, hcolors ?_ ?_, by decide⟩
  · intro s hs
    rwa [← Option.some.inj hs]
  · intro d' hd'
    rwa [List.mem_singleton.mp hd']

end CapLang
