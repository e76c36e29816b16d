import CapLang.Proofs.Positions
import CapLang.Proofs.Unfolding

/-!
# What matches bind

A value fits a pattern if it has the shape that the pattern describes (`Pattern.Fits`), and the
binders of a pattern are known with their positions from the pattern alone (`Pattern.binders`).  A
match finds out whether the value fits, and if so it adds one binding for each binder, in their
order: the part of the value at the binder's position (`Pattern.matchOnto_of_fits`).  A match that
fails may have added some bindings by then, but it takes none away (`Pattern.prefix_matchOnto`).

A case drops what failed alternatives have added, so the body of the one that it chooses sees the
bindings of its own pattern and nothing else that is new (`matches_bind_exactly`).
-/
namespace CapLang

/-! ## Shapes -/

/-- **The value has the shape that the pattern describes.**  A record may have further fields. -/
inductive Pattern.Fits : Pattern → Value → Prop
  | wildcard (v : Value) : Fits .wildcard v
  | bind (x : Name) (v : Value) : Fits (.bind x) v
  | literal (l : Literal) : Fits (.literal l) (.ofLiteral l)
  | variant (t : Name) {p : Pattern} {v : Value} (payload : Fits p v) :
      Fits (.variant t p) (.variant t v)
  | record (stamp : Stamp) {ps : List (Name × Pattern)} {fields : List (Name × Value)}
      (part : Name → Value) (found : ∀ q ∈ ps, Value.field? q.1 fields = some (part q.1))
      (fits : ∀ q ∈ ps, Fits q.2 (part q.1)) : Fits (.record ps) (.record stamp fields)
  /-- The record without fields has what is asked of no field. -/
  | unit : Fits (.record []) .unit

theorem Literal.fits_iff {l : Literal} {v : Value} : l.fits v = true ↔ .ofLiteral l = v := by
  cases l <;> cases v <;> simp [Literal.fits, Value.ofLiteral]

/-! ## Binders -/

/-- A binder of a pattern: where it stands, which is also where the value has the part that it
binds, and the name. -/
structure Binder where
  position : Value.Position
  name : Name

/-- The binder as the whole pattern has it, when a step leads to the pattern it was found in. -/
def Binder.under (step : Value.Step) (b : Binder) : Binder := ⟨step :: b.position, b.name⟩

mutual

/-- The binders of a pattern, from left to right. -/
def Pattern.binders : Pattern → List Binder
  | .wildcard | .literal _ => []
  | .bind x => [⟨[], x⟩]
  | .variant _ p => p.binders.map (Binder.under .payload)
  | .record ps => Pattern.bindersOfFields ps

/-- The binders of the patterns of some fields, from left to right. -/
def Pattern.bindersOfFields : List (Name × Pattern) → List Binder
  | [] => []
  | (x, p) :: rest => p.binders.map (Binder.under (.field x)) ++ Pattern.bindersOfFields rest

end

/-- The binding that a binder makes if the value has a part at its position. -/
def Binder.binding? (v : Value) (b : Binder) : Option (Name × Value) :=
  (v.at? b.position).map fun w => (b.name, w)

theorem Binder.binding?_name {v : Value} {b : Binder} {binding : Name × Value}
    (h : b.binding? v = some binding) : binding.1 = b.name := by
  obtain ⟨w, -, rfl⟩ := Option.map_eq_some_iff.mp h
  rfl

/-- **The bindings that a pattern makes in a value**, one for each binder. -/
def Pattern.bindingsIn (p : Pattern) (v : Value) : List (Name × Value) :=
  p.binders.filterMap (Binder.binding? v)

/-- The last of the binders that have a name. -/
def Pattern.LastBinder (p : Pattern) (x : Name) (b : Binder) : Prop :=
  ∃ before after, p.binders = before ++ b :: after ∧ b.name = x ∧ ∀ c ∈ after, c.name ≠ x

section Induction

variable {motive : Pattern → Prop} (wildcard : motive .wildcard) (bind : ∀ x, motive (.bind x))
  (literal : ∀ l, motive (.literal l)) (variant : ∀ t p, motive p → motive (.variant t p))
  (record : ∀ ps, (∀ q ∈ ps, motive q.2) → motive (.record ps))

include wildcard bind literal variant record in
@[elab_as_elim]
theorem Pattern.induction (p : Pattern) : motive p :=
  @Pattern.rec motive (fun ps => ∀ q ∈ ps, motive q.2) (fun q => motive q.2) wildcard bind literal
    variant record nofun (fun _ _ hq hrest => List.forall_mem_cons.mpr ⟨hq, hrest⟩)
    (fun _ _ hp => hp) p

end Induction

namespace Pattern

variable {p : Pattern} {v : Value} {x : Name} {ps : List (Name × Pattern)}
  {fields : List (Name × Value)}

theorem Fits.of_fields {stamp : Stamp}
    (h : ∀ q ∈ ps, ∃ v, Value.field? q.1 fields = some v ∧ q.2.Fits v) :
    Fits (.record ps) (.record stamp fields) := by
  refine .record stamp (fun x => (Value.field? x fields).getD .unit) (fun q hq => ?_) fun q hq => ?_
  · obtain ⟨v, hv, -⟩ := h q hq
    rw [hv, Option.getD_some]
  · obtain ⟨v, hv, hfits⟩ := h q hq
    rwa [hv, Option.getD_some]

/-- The binders have the names that the pattern announces. -/
theorem binders_names (p : Pattern) : p.binders.map (·.name) = p.boundNames := by
  induction p using Pattern.induction with
  | wildcard | bind | literal => rfl
  | variant t p ih => rw [binders, boundNames, List.map_map, ← ih]; rfl
  | record ps ih =>
    rw [binders, boundNames]
    induction ps with
    | nil => rfl
    | cons q rest ihrest =>
      obtain ⟨hq, hrest⟩ := List.forall_mem_cons.mp ih
      rw [bindersOfFields, boundNamesOfFields, List.map_append, List.map_map, ← hq, ihrest hrest]
      rfl

theorem mem_bindersOfFields {b : Binder} :
    b ∈ bindersOfFields ps ↔ ∃ q ∈ ps, ∃ c ∈ q.2.binders, c.under (.field q.1) = b := by
  induction ps with
  | nil => simp [bindersOfFields]
  | cons q rest ih =>
    simp only [bindersOfFields, List.mem_append, ih, List.mem_map, List.mem_cons,
      exists_eq_or_imp]

/-! ## Matches that succeed -/

@[simp] theorem bindingsIn_variant (t u : Name) (p : Pattern) (v : Value) :
    (Pattern.variant t p).bindingsIn (.variant u v) = p.bindingsIn v := by
  rw [bindingsIn, binders, List.filterMap_map]
  rfl

/-- The bindings that the patterns of some fields make in a record. -/
def bindingsInFields (ps : List (Name × Pattern)) (stamp : Stamp)
    (fields : List (Name × Value)) : List (Name × Value) :=
  (bindersOfFields ps).filterMap (Binder.binding? (.record stamp fields))

theorem bindingsInFields_cons {stamp : Stamp} (h : Value.field? x fields = some v) :
    bindingsInFields ((x, p) :: ps) stamp fields =
      p.bindingsIn v ++ bindingsInFields ps stamp fields := by
  rw [bindingsInFields, bindersOfFields, List.filterMap_append, List.filterMap_map]
  refine congrArg (· ++ _) (List.filterMap_congr fun b _ => ?_)
  show Option.map _ (((Value.record stamp fields).inside? (.field x)).bind _) = _
  rw [Value.inside?, h]
  rfl

theorem matchFieldsOnto_of_fits (stamp : Stamp) (part : Name → Value)
    (found : ∀ q ∈ ps, Value.field? q.1 fields = some (part q.1))
    (ih : ∀ q ∈ ps, ∀ bs,
      q.2.matchOnto (part q.1) bs = (true, bs ++ q.2.bindingsIn (part q.1)))
    (bs : List (Name × Value)) :
    matchFieldsOnto fields ps bs = (true, bs ++ bindingsInFields ps stamp fields) := by
  induction ps generalizing bs with
  | nil => simp [matchFieldsOnto, bindingsInFields, bindersOfFields]
  | cons q rest ihrest =>
    obtain ⟨hfound, hfounds⟩ := List.forall_mem_cons.mp found
    obtain ⟨hq, hrest⟩ := List.forall_mem_cons.mp ih
    rw [bindingsInFields_cons hfound, matchFieldsOnto, hfound]
    simp only [hq, ihrest hfounds hrest, List.append_assoc]

/-- **A value that fits is matched, and each binder makes its binding.** -/
theorem matchOnto_of_fits (h : p.Fits v) (bs : List (Name × Value)) :
    p.matchOnto v bs = (true, bs ++ p.bindingsIn v) := by
  induction h generalizing bs with
  | wildcard v => rw [matchOnto, bindingsIn, binders, List.filterMap_nil, List.append_nil]
  | bind x v => rw [matchOnto]; rfl
  | literal l =>
    rw [matchOnto, Literal.fits_iff.mpr rfl, bindingsIn, binders, List.filterMap_nil,
      List.append_nil]
  | variant t _ ih => rw [matchOnto, if_pos rfl, ih, bindingsIn_variant]
  | record stamp part found _ ih =>
    rw [matchOnto, matchFieldsOnto_of_fits stamp part found ih]
    rfl
  | unit => simp [matchOnto, bindingsIn, binders, bindersOfFields]

/-! ## Matches that fail -/

theorem fits_of_matchFieldsOnto (ih : ∀ q ∈ ps, ∀ v bs,
    (q.2.matchOnto v bs).1 = true → q.2.Fits v) {bs : List (Name × Value)}
    (h : (matchFieldsOnto fields ps bs).1 = true) :
    ∀ q ∈ ps, ∃ v, Value.field? q.1 fields = some v ∧ q.2.Fits v := by
  induction ps generalizing bs with
  | nil => exact nofun
  | cons q rest ihrest =>
    obtain ⟨hq, hrest⟩ := List.forall_mem_cons.mp ih
    rw [matchFieldsOnto] at h
    cases hv : Value.field? q.1 fields with
    | none =>
      rw [hv] at h
      cases h
    | some v =>
      simp only [hv] at h
      have hfits := hq v bs
      generalize q.2.matchOnto v bs = r at h hfits
      obtain ⟨fits, bs'⟩ := r
      cases fits with
      | false => cases h
      | true => exact List.forall_mem_cons.mpr ⟨⟨v, hv, hfits rfl⟩, ihrest hrest h⟩

/-- **Only a value that fits is matched.** -/
theorem fits_of_matchOnto {bs : List (Name × Value)} (h : (p.matchOnto v bs).1 = true) :
    p.Fits v := by
  induction p using Pattern.induction generalizing v bs with
  | wildcard => exact .wildcard v
  | bind x => exact .bind x v
  | literal l =>
    rw [matchOnto] at h
    obtain rfl := Literal.fits_iff.mp h
    exact .literal l
  | variant t p ih =>
    cases v with
    | variant u w =>
      rw [matchOnto] at h
      split at h
      · next htag =>
        obtain rfl := htag
        exact .variant t (ih h)
      · cases h
    | _ => simp [matchOnto] at h
  | record ps ih =>
    cases v with
    | record stamp fields =>
      rw [matchOnto] at h
      exact .of_fields (fits_of_matchFieldsOnto (fun q hq v bs => ih q hq) h)
    | unit =>
      rw [matchOnto] at h
      obtain rfl := List.isEmpty_iff.mp h
      exact .unit
    | _ => simp [matchOnto] at h

theorem prefix_matchFieldsOnto (ih : ∀ q ∈ ps, ∀ v bs, bs <+: (q.2.matchOnto v bs).2)
    (bs : List (Name × Value)) : bs <+: (matchFieldsOnto fields ps bs).2 := by
  induction ps generalizing bs with
  | nil => exact List.prefix_rfl
  | cons q rest ihrest =>
    obtain ⟨hq, hrest⟩ := List.forall_mem_cons.mp ih
    rw [matchFieldsOnto]
    cases Value.field? q.1 fields with
    | none => exact List.prefix_rfl
    | some v =>
      have hprefix := hq v bs
      simp only
      generalize q.2.matchOnto v bs = r at hprefix ⊢
      obtain ⟨fits, bs'⟩ := r
      cases fits with
      | false => exact hprefix
      | true => exact hprefix.trans (ihrest hrest bs')

/-- **A match takes no binding away**, also when it fails. -/
theorem prefix_matchOnto (p : Pattern) (v : Value) (bs : List (Name × Value)) :
    bs <+: (p.matchOnto v bs).2 := by
  induction p using Pattern.induction generalizing v bs with
  | wildcard | literal => simp [matchOnto]
  | bind x =>
    rw [matchOnto]
    exact List.prefix_append bs _
  | variant t p ih =>
    cases v with
    | variant u w =>
      rw [matchOnto]
      split
      · exact ih w bs
      · exact List.prefix_rfl
    | _ => simp [matchOnto]
  | record ps ih =>
    cases v with
    | record stamp fields =>
      rw [matchOnto]
      exact prefix_matchFieldsOnto ih bs
    | _ => simp [matchOnto]

theorem matchOnto_iff {bs : List (Name × Value)} : (p.matchOnto v bs).1 = true ↔ p.Fits v :=
  ⟨fits_of_matchOnto, fun h => by rw [matchOnto_of_fits h]⟩

theorem match?_of_fits (h : p.Fits v) : p.match? v = some (p.bindingsIn v) := by
  rw [match?, matchOnto_of_fits h, List.nil_append]

theorem match?_of_not_fits (h : ¬ p.Fits v) : p.match? v = none := by
  have hfails : (p.matchOnto v []).1 ≠ true := mt fits_of_matchOnto h
  rw [match?]
  generalize p.matchOnto v [] = r at hfails
  obtain ⟨fits, bs⟩ := r
  cases fits with
  | false => rfl
  | true => exact absurd rfl hfails

/-! ## What is bound -/

/-- A value that fits has a part at the position of each binder. -/
theorem Fits.part {b : Binder} (h : p.Fits v) (hb : b ∈ p.binders) :
    ∃ w, v.at? b.position = some w := by
  induction h generalizing b with
  | wildcard | literal | unit => cases hb
  | bind x v =>
    obtain rfl := List.mem_singleton.mp hb
    exact ⟨v, rfl⟩
  | variant t _ ih =>
    obtain ⟨c, hc, rfl⟩ := List.mem_map.mp hb
    exact ih hc
  | @record stamp ps fields part found _ ih =>
    obtain ⟨q, hq, c, hc, rfl⟩ := mem_bindersOfFields.mp hb
    obtain ⟨w, hw⟩ := ih q hq hc
    refine ⟨w, ?_⟩
    show ((Value.record stamp fields).inside? (.field q.1)).bind _ = _
    rw [Value.inside?, found q hq]
    exact hw

/-- One binding for each binder, in their order. -/
theorem Fits.bindings (h : p.Fits v) :
    List.Forall₂ (fun b binding => binding.1 = b.name ∧ v.at? b.position = some binding.2)
      p.binders (p.bindingsIn v) := by
  have hparts := fun b => h.part (b := b)
  unfold bindingsIn
  generalize p.binders = bs at hparts ⊢
  induction bs with
  | nil => exact .nil
  | cons b rest ih =>
    obtain ⟨⟨w, hw⟩, hrest⟩ := List.forall_mem_cons.mp hparts
    rw [List.filterMap_cons_some (b := (b.name, w)) (by rw [Binder.binding?, hw]; rfl)]
    exact .cons ⟨rfl, hw⟩ (ih hrest)

theorem Fits.bindings_names (h : p.Fits v) : (p.bindingsIn v).map (·.1) = p.boundNames := by
  rw [← binders_names, ← List.forall₂_eq_eq_eq, List.forall₂_map_left_iff,
    List.forall₂_map_right_iff]
  exact h.bindings.flip.imp fun _ _ hb => hb.1

theorem exists_lastBinder (hx : x ∈ p.boundNames) : ∃ b, p.LastBinder x b := by
  rw [← binders_names] at hx
  unfold LastBinder
  generalize p.binders = bs at hx ⊢
  induction bs with
  | nil => cases hx
  | cons b rest ih =>
    by_cases hrest : x ∈ rest.map (·.name)
    · obtain ⟨c, before, after, rfl, hname, hafter⟩ := ih hrest
      exact ⟨c, b :: before, after, rfl, hname, hafter⟩
    · have hb : x = b.name := (List.mem_cons.mp hx).resolve_right hrest
      exact ⟨b, [], rest, rfl, hb.symm, fun c hc hname => hrest (hname ▸ List.mem_map_of_mem hc)⟩

theorem LastBinder.mem {b : Binder} (h : p.LastBinder x b) : b ∈ p.binders := by
  obtain ⟨before, after, hsplit, -⟩ := h
  rw [hsplit]
  exact List.mem_append_right before List.mem_cons_self

/-- **A name is bound to what its last binder binds.** -/
theorem lookup_of_lastBinder {b : Binder} (h : p.Fits v) (hb : p.LastBinder x b) (env : Env)
    (stamp : Stamp) : (env.extendMany stamp (p.bindingsIn v)).lookup x = v.at? b.position := by
  obtain ⟨w, hw⟩ := h.part hb.mem
  obtain ⟨before, after, hsplit, rfl, hafter⟩ := hb
  have hlast : b.binding? v = some (b.name, w) := by rw [Binder.binding?, hw]; rfl
  -- A look-up goes from the right, where no later binder has the name.
  have hnone : Value.field? b.name (after.filterMap (Binder.binding? v)).reverse = none := by
    refine Value.field?_reverse_eq_none fun hmem => ?_
    obtain ⟨binding, hbinding, hname⟩ := List.mem_map.mp hmem
    obtain ⟨c, hc, hcbinding⟩ := List.mem_filterMap.mp hbinding
    exact hafter c hc ((Binder.binding?_name hcbinding).symm.trans hname)
  rw [Env.lookup_extendMany, bindingsIn, hsplit, List.filterMap_append,
    List.filterMap_cons_some hlast, List.reverse_append, List.reverse_cons, List.append_assoc,
    Value.field?_append, hnone, hw]
  simp [Value.field?]

theorem lookup_of_not_bound (h : p.Fits v) (hx : x ∉ p.boundNames) (env : Env) (stamp : Stamp) :
    (env.extendMany stamp (p.bindingsIn v)).lookup x = env.lookup x := by
  rw [Env.lookup_extendMany, Value.field?_reverse_eq_none (h.bindings_names ▸ hx), Option.none_or]

end Pattern

/-! ## Cases -/

/-- The body of the alternative that is chosen runs where its own pattern's bindings are added to
those around the case, and nothing else is. -/
theorem Context.eval_caseOf_of_fits {cx : Context} {patience : Nat} {env : Env}
    {span : Option Span} {e body : Term} {p : Pattern} {alternatives : List (Pattern × Term)}
    {m m₁ : Machine} {v : Value} {i : Nat}
    (he : cx.eval patience env e (m.counted .term) = .ok v m₁)
    (here : alternatives[i]? = some (p, body)) (fits : p.Fits v)
    (before : ∀ a ∈ alternatives.take i, ¬ a.1.Fits v) :
    cx.eval patience env (.caseOf span e alternatives) m =
      cx.eval patience (env.extendMany m₁.world.stamp.1 (p.bindingsIn v)) body
        (m₁.counted .case).stamped := by
  have hchosen : Term.choose v alternatives = some (p.bindingsIn v, body) :=
    Term.choose_eq_some.mpr ⟨i, p, here, Pattern.match?_of_fits fits,
      fun a ha => Pattern.match?_of_not_fits (before a ha)⟩
  rw [eval_caseOf, Eval.count_bind, Eval.bind_of_ok he, Eval.count_bind]
  simp only [hchosen]
  exact Eval.bind_of_ok (Eval.bindNames_apply ..)

/-- **A match succeeds on the values that fit, and binds what the pattern announces.**  Whether it
succeeds does not depend on the bindings it starts from, and these stay in front of those it adds.
When it succeeds it has added one binding for each binder of the pattern, in their order: its name,
with the part of the value at its position.

In a case, the body of the first alternative that fits runs where these bindings are added to those
around the case.  Each name that the pattern announces is bound there, to what its last binder
binds, and every other name stands for what it stands for around the case, whatever earlier
alternatives bound before they failed. -/
theorem matches_bind_exactly (p : Pattern) (v : Value) (bs : List (Name × Value)) :
    ((p.matchOnto v bs).1 = true ↔ p.Fits v) ∧
    (∀ bs', (p.matchOnto v bs').1 = (p.matchOnto v bs).1) ∧
    bs <+: (p.matchOnto v bs).2 ∧
    (p.Fits v → p.matchOnto v bs = (true, bs ++ p.bindingsIn v) ∧
      (p.bindingsIn v).map (·.1) = p.boundNames ∧
      List.Forall₂ (fun b binding => binding.1 = b.name ∧ v.at? b.position = some binding.2)
        p.binders (p.bindingsIn v)) ∧
    ∀ (cx : Context) (patience : Nat) (env : Env) (span : Option Span) (e body : Term)
      (alternatives : List (Pattern × Term)) (m m₁ : Machine) (i : Nat),
      cx.eval patience env e (m.counted .term) = .ok v m₁ →
      alternatives[i]? = some (p, body) → p.Fits v →
      (∀ a ∈ alternatives.take i, ¬ a.1.Fits v) →
      let inner := env.extendMany m₁.world.stamp.1 (p.bindingsIn v)
      cx.eval patience env (.caseOf span e alternatives) m =
        cx.eval patience inner body (m₁.counted .case).stamped ∧
      (∀ x ∈ p.boundNames, ∃ b w, p.LastBinder x b ∧ v.at? b.position = some w ∧
        inner.lookup x = some w) ∧
      ∀ x ∉ p.boundNames, inner.lookup x = env.lookup x := by
  refine ⟨Pattern.matchOnto_iff, fun bs' => ?_, Pattern.prefix_matchOnto p v bs, fun fits => ?_, ?_⟩
  · rw [Bool.eq_iff_iff, Pattern.matchOnto_iff, Pattern.matchOnto_iff]
  · exact ⟨Pattern.matchOnto_of_fits fits bs, fits.bindings_names, fits.bindings⟩
  · intro cx patience env span e body alternatives m m₁ i he here fits before inner
    refine ⟨cx.eval_caseOf_of_fits he here fits before, fun x hx => ?_, fun x hx => ?_⟩
    · obtain ⟨b, hb⟩ := Pattern.exists_lastBinder hx
      obtain ⟨w, hw⟩ := fits.part hb.mem
      exact ⟨b, w, hb, hw, (Pattern.lookup_of_lastBinder fits hb env _).trans hw⟩
    · exact Pattern.lookup_of_not_bound fits hx env _

/-- The first alternative binds `kept` and then lacks a field, the second binds `twice` twice. -/
theorem failed_alternative_leaves_nothing :
    let kept : Name := ⟨5⟩
    let twice : Name := ⟨6⟩
    let v : Value := .record ⟨0⟩ [(⟨0⟩, .int 1), (⟨1⟩, .variant ⟨2⟩ (.bool true))]
    let first : Pattern := .record [(⟨0⟩, .bind kept), (⟨3⟩, .wildcard)]
    let second : Pattern := .record [(⟨0⟩, .bind twice), (⟨1⟩, .variant ⟨2⟩ (.bind twice))]
    let cx : Context := ⟨⟨#[]⟩, .empty, World.invoke⟩
    let env : Env := .frame ⟨0⟩ [(⟨4⟩, v), (kept, .int 7)] .empty
    let m := Machine.start .unbounded true (.ofInput ByteArray.empty)
    first.matchOnto v [] = (false, [(kept, .int 1)]) ∧
    second.matchOnto v [] = (true, [(twice, .int 1), (twice, .bool true)]) ∧
    ∀ body : Term, ∃ (inner : Env) (m' : Machine),
      cx.eval 0 env (.caseOf none (.var none ⟨4⟩) [(first, .var none kept), (second, body)]) m =
        cx.eval 0 inner body m' ∧
      inner.lookup twice = some (.bool true) ∧ inner.lookup kept = some (.int 7) := by
  intro kept twice v first second cx env m
  have hfirst : first.matchOnto v [] = (false, [(kept, .int 1)]) := rfl
  have hsecond : second.matchOnto v [] = (true, [(twice, .int 1), (twice, .bool true)]) := rfl
  refine ⟨hfirst, hsecond, fun body => ?_⟩
  have fails : ¬ first.Fits v := fun h => by
    have hmatched := (matches_bind_exactly first v []).1.mpr h
    rw [hfirst] at hmatched
    cases hmatched
  obtain ⟨hiff, -, -, -, hcase⟩ := matches_bind_exactly second v []
  have fits : second.Fits v := hiff.mp (by rw [hsecond])
  obtain ⟨heval, -, hother⟩ := hcase cx 0 env none (.var none ⟨4⟩) body
    [(first, .var none kept), (second, body)] m _ 1 rfl rfl fits
    (List.forall_mem_singleton.mpr fails)
  exact ⟨_, _, heval, rfl, hother kept (by decide)⟩

end CapLang
