import CapLang.Proofs.Hosts

/-!
# What writers and readers accept

A writer accepts `write` if the first argument is a text, and whatever arguments follow; a reader
accepts `read` without arguments (`World.invoke_writer`, `World.invoke_reader`).  A call that is
refused changes no object, and one that is accepted adds its text to the writer that it asks.

So a writer that keeps its text keeps, after whatever calls of whatever objects, the texts of the
calls that it accepted since it was last cleared (`World.object?_accesses`): each call adds the text
that its own answer says was accepted (`World.object?_call`).
-/
namespace CapLang

/-! ## Single calls -/

/-- **What a writer answers.**  Arguments after the first one do not count. -/
inductive WriterAnswers : String → List Value → Except Fault Value → Prop
  | written (s : String) (rest : List Value) :
      WriterAnswers "write" (.str s :: rest) (.ok .unit)
  | wrongKind {v : Value} (rest : List Value) (other : ∀ s, v ≠ .str s) :
      WriterAnswers "write" (v :: rest) (.error (.ofCause (.typeMismatch "String" v.typeName)))
  | noArgument : WriterAnswers "write" [] (.error (.ofCause (.arityMismatch "" 1 0)))
  | unknown {method : String} (args : List Value) (other : method ≠ "write") :
      WriterAnswers method args (.error (.ofCause (.unknownMethod "Writer" method)))

/-- **What a reader of a text answers.** -/
inductive ReaderAnswers (text : String) : String → List Value → Except Fault Value → Prop
  | text : ReaderAnswers text "read" [] (.ok (.str text))
  | arguments {args : List Value} (some : args ≠ []) :
      ReaderAnswers text "read" args (.error (.ofCause (.arityMismatch "" 0 args.length)))
  | unknown {method : String} (args : List Value) (other : method ≠ "read") :
      ReaderAnswers text method args (.error (.ofCause (.unknownMethod "Reader" method)))

/-- A writer accepts what begins with a text, and nothing else. -/
theorem WriterAnswers.accepts_iff {method : String} {args : List Value} {r : Except Fault Value}
    (h : WriterAnswers method args r) :
    (∃ v, r = .ok v) ↔ method = "write" ∧ ∃ s rest, args = .str s :: rest := by
  cases h with
  | written s rest => exact iff_of_true ⟨_, rfl⟩ ⟨rfl, s, rest, rfl⟩
  | wrongKind rest other =>
    refine iff_of_false nofun ?_
    rintro ⟨-, s, rest', heq⟩
    exact other s (List.cons.inj heq).1
  | noArgument => exact iff_of_false nofun nofun
  | unknown args other => exact iff_of_false nofun fun h => other h.1

theorem ReaderAnswers.accepts_iff {text method : String} {args : List Value}
    {r : Except Fault Value} (h : ReaderAnswers text method args r) :
    (∃ v, r = .ok v) ↔ method = "read" ∧ args = [] := by
  cases h with
  | text => exact iff_of_true ⟨_, rfl⟩ ⟨rfl, rfl⟩
  | arguments some => exact iff_of_false nofun fun h => some h.2
  | unknown args other => exact iff_of_false nofun fun h => other h.1

namespace World

variable {w : World} {h : Handle} {sink : Sink} {s text method : String} {args : List Value}

/-- **A writer answers by its rule.** -/
theorem invoke_writer (method : String) (args : List Value)
    (hobject : w.object? h.object = some (.writer sink)) :
    WriterAnswers method args (w.invoke h method args).1 := by
  simp only [invoke, hobject, Sink.request]
  by_cases hmethod : method = "write"
  · subst hmethod
    cases args with
    | nil => exact .noArgument
    | cons v rest =>
      cases v with
      | str s => exact .written s rest
      | _ => exact .wrongKind rest nofun
  · rw [if_neg hmethod]
    exact .unknown args hmethod

/-- **A reader of a text answers by its rule.** -/
theorem invoke_reader (method : String) (args : List Value)
    (hobject : w.object? h.object = some (.reader (.text text))) :
    ReaderAnswers text method args (w.invoke h method args).1 := by
  simp only [invoke, hobject, Origin.request]
  by_cases hmethod : method = "read"
  · subst hmethod
    cases args with
    | nil => exact .text
    | cons v rest => exact .arguments (List.cons_ne_nil v rest)
  · rw [if_neg hmethod]
    exact .unknown args hmethod

/-- A call that an object answers with a fault writes nothing. -/
theorem textTo?_of_refused {f : Fault} (hobject : w.object? h.object = some (.writer sink))
    (hf : (w.invoke h method args).1 = .error f) (id : ObjectId) :
    Invocation.textTo? id ⟨h, method, args⟩ = none := by
  have hanswers := invoke_writer method args hobject
  rw [hf] at hanswers
  cases hanswers with
  | @wrongKind v rest other =>
    cases v with
    | str s => exact absurd rfl (other s)
    | _ => rfl
  | noArgument => rfl
  | unknown args other => simp only [Invocation.textTo?, Sink.request, if_neg other]

/-- **A writer that refuses a call changes no object.** -/
theorem object?_refused {f : Fault} (hobject : w.object? h.object = some (.writer sink))
    (hf : (w.invoke h method args).1 = .error f) (id : ObjectId) :
    (w.invoke h method args).2.object? id = w.object? id := by
  rw [object?_invoke, textTo?_of_refused hobject hf, Option.getD_none, Object.map_added_empty]

/-- **A writer that accepts a call gets its text**, and no other object changes. -/
theorem object?_written (h : Handle) (rest : List Value) (id : ObjectId) :
    (w.invoke h "write" (.str s :: rest)).2.object? id =
      if h.object = id then (w.object? id).map (Object.added s) else w.object? id := by
  have htext : Invocation.textTo? id ⟨h, "write", .str s :: rest⟩ =
      if h.object = id then some s else none := rfl
  rw [object?_invoke, htext]
  by_cases hid : h.object = id
  · rw [if_pos hid, if_pos hid, Option.getD_some]
  · rw [if_neg hid, if_neg hid, Option.getD_none, Object.map_added_empty]

/-- Readers change no object. -/
theorem object?_read {origin : Origin} (hobject : w.object? h.object = some (.reader origin))
    (method : String) (args : List Value) (id : ObjectId) :
    (w.invoke h method args).2.object? id = w.object? id := by
  rw [object?_invoke]
  exact w.map_added_of_object hobject (fun _ => rfl) id

end World

/-! ## Many calls -/

/-- Something done with objects: a method is called, or a writer is cleared. -/
inductive Access
  | call (h : Handle) (method : String) (args : List Value)
  | clear (id : ObjectId)

namespace World

/-- The world after something is done with objects. -/
def access (w : World) : Access → World
  | .call h method args => (w.invoke h method args).2
  | .clear id => w.clear id

/-- The text that an object is given with a call that it answers with a value. -/
def accepted? (w : World) (id : ObjectId) : Access → Option String
  | .call h method args =>
    if h.object = id ∧ (w.invoke h method args).1.isOk then args.head?.bind Value.asStr? else none
  | .clear _ => none

/-- The world after one thing after the other is done with objects. -/
def accesses (w : World) : List Access → World
  | [] => w
  | a :: as => (w.access a).accesses as

/-- The texts of the calls that an object answers with a value, in order. -/
def acceptedTexts (w : World) (id : ObjectId) : List Access → List String
  | [] => []
  | a :: as => (w.accepted? id a).toList ++ (w.access a).acceptedTexts id as

variable {w : World} {id : ObjectId} {sink : Sink} {s : String}

/-- The text that a writer accepts is the one that is written to it. -/
theorem accepted?_call (hobject : w.object? id = some (.writer sink)) (h : Handle)
    (method : String) (args : List Value) :
    w.accepted? id (.call h method args) = Invocation.textTo? id ⟨h, method, args⟩ := by
  by_cases hid : h.object = id
  · subst hid
    have hanswers := invoke_writer method args hobject
    cases hr : (w.invoke h method args).1 with
    | error f => rw [textTo?_of_refused hobject hr, accepted?, hr, if_neg fun h => nomatch h.2]
    | ok v =>
      rw [accepted?, hr, if_pos ⟨rfl, rfl⟩]
      rw [hr] at hanswers
      cases hanswers with
      | written s rest => exact (if_pos rfl).symm
  · rw [Invocation.textTo?_of_ne hid, accepted?, if_neg fun h => hid h.1]

/-- **One call adds the text that its answer says was accepted.** -/
theorem object?_call (hobject : w.object? id = some (.writer (.buffer s))) (h : Handle)
    (method : String) (args : List Value) :
    (w.access (.call h method args)).object? id =
      some (.writer (.buffer (s ++ (w.accepted? id (.call h method args)).getD ""))) := by
  rw [access, object?_invoke, hobject, accepted?_call hobject]
  rfl

theorem object?_clear (id id' : ObjectId) : (w.clear id').object? id =
    if id' = id then (w.object? id).map Object.cleared else w.object? id := by
  by_cases hid : id' = id
  · rw [if_pos hid, object?, clear, Array.getElem?_modify, if_pos (congrArg _ hid)]
    rfl
  · have hindex : ¬ id'.index = id.index := fun heq => hid (congrArg ObjectId.mk heq)
    rw [if_neg hid, object?, clear, Array.getElem?_modify, if_neg hindex]
    rfl

/-- **Until it is cleared, a writer adds the texts that it accepts** to what it has kept. -/
theorem object?_accesses (hobject : w.object? id = some (.writer (.buffer s)))
    {as : List Access} (hclear : .clear id ∉ as) : (w.accesses as).object? id =
      some (.writer (.buffer (s ++ String.join (w.acceptedTexts id as)))) := by
  induction as generalizing w s with
  | nil =>
    rw [accesses, acceptedTexts, hobject]
    exact congrArg (fun t => some (Object.writer (.buffer t))) (String.append_empty).symm
  | cons a as ih =>
    rw [List.mem_cons, not_or] at hclear
    obtain ⟨hfirst, hrest⟩ := hclear
    have hjoin : String.join (w.acceptedTexts id (a :: as)) =
        (w.accepted? id a).getD "" ++ String.join ((w.access a).acceptedTexts id as) := by
      rw [acceptedTexts, String.join_append]
      cases w.accepted? id a <;> simp
    have hafter : (w.access a).object? id =
        some (.writer (.buffer (s ++ (w.accepted? id a).getD ""))) := by
      cases a with
      | call h method args => exact object?_call hobject h method args
      | clear id' =>
        have hid : id' ≠ id := fun heq => hfirst (by rw [heq])
        rw [access, object?_clear, if_neg hid, hobject, accepted?, Option.getD_none,
          String.append_empty]
    rw [accesses, ih hafter hrest, hjoin, String.append_assoc]

theorem accesses_append (w : World) (as bs : List Access) :
    w.accesses (as ++ bs) = (w.accesses as).accesses bs := by
  induction as generalizing w with
  | nil => rfl
  | cons a as ih => exact ih (w.access a)

/-- A writer that keeps its text does so for good. -/
theorem exists_kept (hobject : w.object? id = some (.writer (.buffer s))) (as : List Access) :
    ∃ t, (w.accesses as).object? id = some (.writer (.buffer t)) := by
  induction as generalizing w s with
  | nil => exact ⟨s, hobject⟩
  | cons a as ih =>
    cases a with
    | call h method args => exact ih (object?_call hobject h method args)
    | clear id' =>
      have hcleared := w.object?_clear id id'
      rw [hobject] at hcleared
      by_cases hid : id' = id
      · rw [if_pos hid] at hcleared
        exact ih hcleared
      · rw [if_neg hid] at hcleared
        exact ih hcleared

/-- **A cleared writer keeps the texts that it accepts from then on.** -/
theorem object?_since_clear (hobject : w.object? id = some (.writer (.buffer s)))
    (before : List Access) {after : List Access} (hclear : .clear id ∉ after) :
    (w.accesses (before ++ .clear id :: after)).object? id = some (.writer (.buffer
      (String.join ((w.accesses (before ++ [.clear id])).acceptedTexts id after)))) := by
  obtain ⟨t, ht⟩ := exists_kept hobject before
  have hcleared : (w.accesses (before ++ [.clear id])).object? id =
      some (.writer (.buffer "")) := by
    rw [accesses_append, accesses, accesses, access, object?_clear, if_pos rfl, ht]
    rfl
  have hsplit : before ++ .clear id :: after = (before ++ [.clear id]) ++ after := by
    rw [List.append_assoc, List.singleton_append]
  rw [hsplit, accesses_append, object?_accesses hcleared hclear, String.empty_append]

end World

/-- **What writers and readers accept, and what writers keep.**  They answer by their rules; a call
that is refused leaves every object as it was, one that a writer accepts adds its text there and
nothing elsewhere, and a reader gives its whole text every time.  So after whatever is done with
objects, a writer that keeps its text has kept the texts of the calls that it answered with a value
since it was last cleared, in order. -/
theorem signatures_and_contents (w : World) :
    (∀ h sink method args, w.object? h.object = some (.writer sink) →
      let r := (w.invoke h method args).1
      let w' := (w.invoke h method args).2
      WriterAnswers method args r ∧
      ((∃ v, r = .ok v) ↔ method = "write" ∧ ∃ s rest, args = .str s :: rest) ∧
      (∀ v, r = .ok v → ∃ s rest, args = .str s :: rest ∧ v = .unit ∧ ∀ id,
        w'.object? id = if h.object = id then (w.object? id).map (.added s) else w.object? id) ∧
      (∀ f, r = .error f → ∀ id, w'.object? id = w.object? id)) ∧
    (∀ h text method args, w.object? h.object = some (.reader (.text text)) →
      let r := (w.invoke h method args).1
      let w' := (w.invoke h method args).2
      ReaderAnswers text method args r ∧
      ((∃ v, r = .ok v) ↔ method = "read" ∧ args = []) ∧
      (∀ v, r = .ok v → v = .str text) ∧ ∀ id, w'.object? id = w.object? id) ∧
    (∀ id s, w.object? id = some (.writer (.buffer s)) → ∀ before after, .clear id ∉ after →
      (w.accesses after).object? id =
        some (.writer (.buffer (s ++ String.join (w.acceptedTexts id after)))) ∧
      (w.accesses (before ++ .clear id :: after)).object? id = some (.writer (.buffer
        (String.join ((w.accesses (before ++ [.clear id])).acceptedTexts id after))))) := by
  refine ⟨?writers, ?readers, ?contents⟩
  case writers =>
    intro h sink method args hobject r w'
    have hanswers : WriterAnswers method args r :=
      World.invoke_writer method args hobject
    refine ⟨hanswers, hanswers.accepts_iff, fun v hv => ?_, fun f => World.object?_refused hobject⟩
    rw [hv] at hanswers
    cases hanswers with
    | written s rest => exact ⟨s, rest, rfl, rfl, World.object?_written h rest⟩
  case readers =>
    intro h text method args hobject r w'
    have hanswers : ReaderAnswers text method args r :=
      World.invoke_reader method args hobject
    refine ⟨hanswers, hanswers.accepts_iff, fun v hv => ?_, World.object?_read hobject method args⟩
    rw [hv] at hanswers
    cases hanswers with
    | text => rfl
  case contents =>
    intro id s hobject before after hclear
    exact ⟨World.object?_accesses hobject hclear, World.object?_since_clear hobject before hclear⟩

/-- A writer is cleared and then called, rightly and wrongly, and a reader is called in between. -/
theorem right_calls_kept :
    let w : World :=
      ⟨#[.writer (.buffer "old"), .reader (.text "in")], 0, [], ByteArray.empty, ""⟩
    let out : Handle := ⟨⟨1⟩, ⟨0⟩, "Writer"⟩
    let source : Handle := ⟨⟨2⟩, ⟨1⟩, "Reader"⟩
    let after : List Access := [.call out "write" [.str "a"], .call out "write" [.int 1],
      .call source "read" [], .call out "print" [.str "b"], .call out "write" [.str "c"]]
    w.object? out.object = some (.writer (.buffer "old")) ∧
      w.object? source.object = some (.reader (.text "in")) ∧ .clear ⟨0⟩ ∉ after ∧
      WriterAnswers "write" [.int 1] (w.invoke out "write" [.int 1]).1 ∧
      ReaderAnswers "in" "read" [.unit] (w.invoke source "read" [.unit]).1 ∧
      (w.accesses ([.call out "write" [.str "x"]] ++ .clear ⟨0⟩ :: after)).object? ⟨0⟩ =
        some (.writer (.buffer "ac")) := by
  intro w out source after
  have hclear : .clear ⟨0⟩ ∉ after := by simp [after]
  obtain ⟨hwriters, hreaders, hcontents⟩ := signatures_and_contents w
  have hwriter := hwriters out _ "write" [.int 1] rfl
  have hreader := hreaders source _ "read" [.unit] rfl
  have hkept := (hcontents ⟨0⟩ "old" rfl [.call out "write" [.str "x"]] after hclear).2
  have htexts : (w.accesses ([.call out "write" [.str "x"]] ++ [.clear ⟨0⟩])).acceptedTexts ⟨0⟩
      after = ["a", "c"] := by
    simp [World.acceptedTexts, World.accepted?, World.accesses, World.access, World.invoke,
      World.object?, World.write, World.clear, World.read, Object.cleared, Sink.request,
      Origin.request, Value.asStr?, Except.isOk, Except.toBool, after, out, source, w]
  have hjoin : String.join ["a", "c"] = "ac" := by decide
  rw [htexts, hjoin] at hkept
  exact ⟨rfl, rfl, hclear, hwriter.1, hreader.1, hkept⟩

/-- A second argument does not keep a writer from accepting a call. -/
theorem second_argument_accepted :
    let w : World := ⟨#[.writer (.buffer "")], 0, [], ByteArray.empty, ""⟩
    let answer := w.invoke ⟨⟨1⟩, ⟨0⟩, "Writer"⟩ "write" [.str "a", .int 2]
    answer.1 = .ok .unit ∧ answer.2.object? ⟨0⟩ = some (.writer (.buffer "a")) ∧
      ¬ ∃ s, [Value.str "a", .int 2] = [.str s] := by
  refine ⟨rfl, rfl, ?_⟩
  rintro ⟨s, heq⟩
  exact List.cons_ne_nil _ _ (List.cons.inj heq).2

end CapLang
