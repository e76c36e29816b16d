import CapLang.Matching
import CapLang.Value.Text
import CapLang.Capability.World
import CapLang.Proofs.Operators
import CapLang.Proofs.Parts
import Mathlib.Data.List.Forall2

/-!
# Values that look alike under other names

Two programs may have different names for the same things.  A relation `N` says which names of the
one correspond to which of the other, and it has to be one-to-one.  What evaluation can find out
about a value is its kind, the scalar or the handle that it is, how the code of a function is
called, and its fields or its payload; two values are akin if they agree in all this up to
corresponding names and contain related values (`Value.Akin`).  If a relation `V` relates only akin
values, then related values have the same text (`text_eq`), compare the same (`equals_eq`), match
corresponding patterns with corresponding bindings (`match?_rel`) and give operators the same
results (`Operator.compute_akin`).
-/
namespace CapLang

open Relator (BiUnique)

/-! ## Lists of pairs -/

/-- Two lists of pairs, entry by entry with related keys and related contents. -/
inductive Entrywise {α β γ δ : Type} (K : α → β → Prop) (R : γ → δ → Prop) :
    List (α × γ) → List (β × δ) → Prop
  | nil : Entrywise K R [] []
  | cons {a : α} {b : β} {c : γ} {d : δ} {fs : List (α × γ)} {gs : List (β × δ)} (key : K a b)
      (content : R c d) (rest : Entrywise K R fs gs) : Entrywise K R ((a, c) :: fs) ((b, d) :: gs)

namespace Entrywise

variable {α β γ δ : Type} {K : α → β → Prop} {R : γ → δ → Prop}
  {fs fs' : List (α × γ)} {gs gs' : List (β × δ)}

theorem append (h : Entrywise K R fs gs) (h' : Entrywise K R fs' gs') :
    Entrywise K R (fs ++ fs') (gs ++ gs') := by
  induction h with
  | nil => exact h'
  | cons key content rest ih => exact .cons key content ih

theorem reverse (h : Entrywise K R fs gs) : Entrywise K R fs.reverse gs.reverse := by
  induction h with
  | nil => exact .nil
  | cons key content rest ih =>
    rw [List.reverse_cons, List.reverse_cons]
    exact ih.append (.cons key content .nil)

theorem length_eq (h : Entrywise K R fs gs) : fs.length = gs.length := by
  induction h with
  | nil => rfl
  | cons key content rest ih => exact congrArg (· + 1) ih

theorem mono {K' : α → β → Prop} {R' : γ → δ → Prop} (hK : ∀ a b, K a b → K' a b)
    (hR : ∀ c d, R c d → R' c d) (h : Entrywise K R fs gs) : Entrywise K' R' fs gs := by
  induction h with
  | nil => exact .nil
  | cons key content rest ih => exact .cons (hK _ _ key) (hR _ _ content) ih

theorem zip {as : List α} {bs : List β} {cs : List γ} {ds : List δ} (hk : List.Forall₂ K as bs)
    (hc : List.Forall₂ R cs ds) : Entrywise K R (as.zip cs) (bs.zip ds) := by
  induction hk generalizing cs ds with
  | nil => exact .nil
  | cons key rest ih =>
    cases hc with
    | nil => exact .nil
    | cons content contents => exact .cons key content (ih contents)

/-- Entries are related in whatever way related keys and related contents make for. -/
theorem forall₂ {Q : α × γ → β × δ → Prop} (h : Entrywise K R fs gs)
    (hQ : ∀ f g, K f.1 g.1 → R f.2 g.2 → Q f g) : List.Forall₂ Q fs gs := by
  induction h with
  | nil => exact .nil
  | cons key content rest ih => exact .cons (hQ _ _ key content) ih

theorem iff_forall₂ :
    Entrywise K R fs gs ↔ List.Forall₂ (fun f g => K f.1 g.1 ∧ R f.2 g.2) fs gs := by
  constructor
  · exact fun h => h.forall₂ fun _ _ key content => ⟨key, content⟩
  · intro h
    induction h with
    | nil => exact .nil
    | cons entry rest ih => exact .cons entry.1 entry.2 ih

/-- Entries at one place are related. -/
theorem getElem? (h : Entrywise K R fs gs) (i : Nat) :
    Option.Rel (fun f g => K f.1 g.1 ∧ R f.2 g.2) fs[i]? gs[i]? := by
  induction h generalizing i with
  | nil => exact .none
  | cons key content rest ih =>
    cases i with
    | zero => exact .some ⟨key, content⟩
    | succ i => exact ih i

/-- Two ways of making entries of the entries of two lists. -/
theorem mapIdx {α' β' γ' δ' : Type} {K' : α' → β' → Prop} {R' : γ' → δ' → Prop}
    {f : Nat → α × γ → α' × γ'} {g : Nat → β × δ → β' × δ'} (h : Entrywise K R fs gs)
    (hkey : ∀ i a b, K a.1 b.1 → R a.2 b.2 → K' (f i a).1 (g i b).1)
    (hcontent : ∀ i a b, K a.1 b.1 → R a.2 b.2 → R' (f i a).2 (g i b).2) :
    Entrywise K' R' (fs.mapIdx f) (gs.mapIdx g) := by
  induction h generalizing f g with
  | nil => exact .nil
  | @cons a b c d fs gs key content rest ih =>
    rw [List.mapIdx_cons, List.mapIdx_cons]
    exact .cons (hkey 0 (a, c) (b, d) key content) (hcontent 0 (a, c) (b, d) key content)
      (ih (fun i => hkey (i + 1)) fun i => hcontent (i + 1))

variable {N : Name → Name → Prop} {V : Value → Value → Prop} {x y : Name}
  {vs ws : List (Name × Value)}

/-- The first fields of corresponding names are related, if there are any. -/
theorem field? (hN : BiUnique N) (h : Entrywise N V vs ws) (hxy : N x y) :
    Option.Rel V (Value.field? x vs) (Value.field? y ws) := by
  induction h with
  | nil => exact .none
  | @cons a b c d vs ws key content rest ih =>
    have hsame : a = x ↔ b = y := Relator.rel_eq hN key hxy
    unfold Value.field? at ih ⊢
    by_cases ha : a = x
    · obtain rfl := ha
      obtain rfl := hsame.mp rfl
      simp only [List.find?_cons, beq_self_eq_true, Option.map_some]
      exact .some content
    · have hb : ¬ b = y := fun hb => ha (hsame.mpr hb)
      simp only [List.find?_cons, beq_eq_false_iff_ne.mpr ha, beq_eq_false_iff_ne.mpr hb]
      exact ih

/-- Look-ups that go through related bindings first come to related values if those outside do for
names that are not among the bound ones. -/
theorem field?_or (hN : BiUnique N) (h : Entrywise N V vs ws) (hxy : N x y) {o₁ o₂ : Option Value}
    (houter : x ∉ vs.map (·.1) → Option.Rel V o₁ o₂) :
    Option.Rel V ((Value.field? x vs.reverse).or o₁) ((Value.field? y ws.reverse).or o₂) := by
  have hfield := h.reverse.field? hN hxy
  generalize hv : Value.field? x vs.reverse = found₁ at hfield ⊢
  generalize Value.field? y ws.reverse = found₂ at hfield ⊢
  cases hfield with
  | none =>
    refine houter fun hmem => ?_
    have hsome := Value.field?_isSome.mpr
      (show x ∈ vs.reverse.map (·.1) by rwa [List.map_reverse, List.mem_reverse])
    rw [hv] at hsome
    cases hsome
  | some hrel => exact .some hrel

theorem lookup_frame (hN : BiUnique N) (h : Entrywise N V vs ws) {env₁ env₂ : Env}
    (s₁ s₂ : Stamp) (hxy : N x y)
    (houter : x ∉ vs.map (·.1) → Option.Rel V (env₁.lookup x) (env₂.lookup y)) :
    Option.Rel V ((Env.frame s₁ vs env₁).lookup x) ((Env.frame s₂ ws env₂).lookup y) := by
  rw [Env.lookup_frame, Env.lookup_frame]
  exact h.field?_or hN hxy houter

/-- In environments that are extended with related bindings, corresponding names stand for related
values if they did before, or if they are among those bound. -/
theorem lookup_extendMany (hN : BiUnique N) (h : Entrywise N V vs ws) {env₁ env₂ : Env}
    (s₁ s₂ : Stamp) (hxy : N x y)
    (houter : x ∉ vs.map (·.1) → Option.Rel V (env₁.lookup x) (env₂.lookup y)) :
    Option.Rel V ((env₁.extendMany s₁ vs).lookup x) ((env₂.extendMany s₂ ws).lookup y) := by
  rw [Env.lookup_extendMany, Env.lookup_extendMany]
  exact h.field?_or hN hxy houter

end Entrywise

/-! ## Kinship -/

/-- Corresponding names are spelled alike in the two tables. -/
def SpelledAlike (N : Name → Name → Prop) (names₁ names₂ : NameTable) : Prop :=
  ∀ x y, N x y → names₁.resolve x = names₂.resolve y

/-- The code belongs to a group, which is bound anew at every call. -/
def Code.isMember : Code → Bool
  | .lambda .. => false
  | .member .. => true

/-- Functions that are called alike: they take equally many arguments and have corresponding names,
and both of them belong to a group or none does. -/
structure Code.Akin (N : Name → Name → Prop) (c₁ c₂ : Code) : Prop where
  isMember : c₁.isMember = c₂.isMember
  arity : c₁.arity = c₂.arity
  name : Option.Rel N c₁.name? c₂.name?

/-- The values agree in what is seen of them, and what they contain is related.  Stamps are not
seen, and neither are the body of a function and its environment. -/
inductive Value.Akin (N : Name → Name → Prop) (V : Value → Value → Prop) : Value → Value → Prop
  | int (n : Int64) : Akin N V (.int n) (.int n)
  | bool (b : Bool) : Akin N V (.bool b) (.bool b)
  | str (s : String) : Akin N V (.str s) (.str s)
  | unit : Akin N V .unit .unit
  | closure {c₁ c₂ : Code} (code : c₁.Akin N c₂) (env₁ env₂ : Env) :
      Akin N V (.closure c₁ env₁) (.closure c₂ env₂)
  | record (s₁ s₂ : Stamp) {fs gs : List (Name × Value)} (fields : Entrywise N V fs gs) :
      Akin N V (.record s₁ fs) (.record s₂ gs)
  | variant {t u : Name} {v w : Value} (tag : N t u) (payload : V v w) :
      Akin N V (.variant t v) (.variant u w)
  | capability {h k : Handle} (name : N h.name k.name) : Akin N V (.capability h) (.capability k)

/-- Patterns that are equal up to corresponding names. -/
inductive Pattern.Akin (N : Name → Name → Prop) : Pattern → Pattern → Prop
  | wildcard : Akin N .wildcard .wildcard
  | bind {x y : Name} (name : N x y) : Akin N (.bind x) (.bind y)
  | literal (l : Literal) : Akin N (.literal l) (.literal l)
  | variant {t u : Name} {p q : Pattern} (tag : N t u) (payload : Akin N p q) :
      Akin N (.variant t p) (.variant u q)
  | record {ps qs : List (Name × Pattern)} (fields : Entrywise N (Akin N) ps qs) :
      Akin N (.record ps) (.record qs)

/-- The name that an operator carries. -/
def Operator.name? : Operator → Option Name
  | .capability x | .invoke x => some x
  | _ => none

/-- Operators that are equal up to corresponding names. -/
inductive Operator.Akin (N : Name → Name → Prop) : Operator → Operator → Prop
  | plain {op : Operator} (nameless : op.name? = none) : Akin N op op
  | capability {x y : Name} (name : N x y) : Akin N (.capability x) (.capability y)
  | invoke {x y : Name} (name : N x y) : Akin N (.invoke x) (.invoke y)

/-! ### Equal names -/

theorem biUnique_eq {α : Type} : BiUnique (Eq : α → α → Prop) :=
  ⟨fun _ _ _ h h' => h.trans h'.symm, fun _ _ _ h h' => h.symm.trans h'⟩

theorem Entrywise.of_forall {α γ : Type} {K : α → α → Prop} {R : γ → γ → Prop}
    {fs : List (α × γ)} (h : ∀ f ∈ fs, K f.1 f.1 ∧ R f.2 f.2) : Entrywise K R fs fs := by
  induction fs with
  | nil => exact .nil
  | cons f rest ih =>
    obtain ⟨hf, hrest⟩ := List.forall_mem_cons.mp h
    exact .cons hf.1 hf.2 (ih hrest)

/-- Contents may be replaced by related ones. -/
theorem Entrywise.map_right {α γ δ : Type} {R : γ → δ → Prop} {fs : List (α × γ)}
    {g : α × γ → δ} (h : ∀ f, R f.2 (g f)) : Entrywise Eq R fs (fs.map fun f => (f.1, g f)) := by
  induction fs with
  | nil => exact .nil
  | cons f rest ih => exact .cons rfl (h f) ih

theorem optionRel_refl {α : Type} {R : α → α → Prop} (h : ∀ a, R a a) (o : Option α) :
    Option.Rel R o o := by
  cases o with
  | none => exact .none
  | some a => exact .some (h a)

theorem Code.akin_refl (c : Code) : c.Akin Eq c := ⟨rfl, rfl, optionRel_refl (fun _ => rfl) _⟩

mutual

theorem Pattern.akin_refl : ∀ p : Pattern, p.Akin Eq p
  | .wildcard => .wildcard
  | .bind _ => .bind rfl
  | .literal l => .literal l
  | .variant _ p => .variant rfl (Pattern.akin_refl p)
  | .record ps => .record (Pattern.akinFields_refl ps)

theorem Pattern.akinFields_refl : ∀ ps : List (Name × Pattern),
    Entrywise Eq (Pattern.Akin Eq) ps ps
  | [] => .nil
  | (_, p) :: rest => .cons rfl (Pattern.akin_refl p) (Pattern.akinFields_refl rest)

end

theorem Operator.akin_refl (op : Operator) : op.Akin Eq op := by
  cases op with
  | capability x => exact .capability rfl
  | invoke x => exact .invoke rfl
  | _ => exact .plain rfl

namespace Value

/-- **Related values are akin**, and so is what they contain. -/
def FaithfulUnder (N : Name → Name → Prop) (V : Value → Value → Prop) : Prop :=
  ∀ v w, V v w → Akin N V v w

variable {N : Name → Name → Prop} {V : Value → Value → Prop}

/-! ## Texts and comparisons -/

namespace FaithfulUnder

variable {names₁ names₂ : NameTable}

mutual

theorem textAfter_eq (hV : FaithfulUnder N V) (hspelled : SpelledAlike N names₁ names₂) :
    ∀ (v : Value) {w : Value}, V v w → ∀ out : String,
      v.textAfter names₁ out = w.textAfter names₂ out
  | .record s₁ fs, w, h, out => by
    cases hV _ _ h with
    | record _ s₂ fields => simp only [Value.textAfter, fieldsAfter_eq hV hspelled fs fields]
  | .variant tag v, w, h, out => by
    cases hV _ _ h with
    | variant htag payload =>
      simp only [Value.textAfter, hspelled _ _ htag, textAfter_eq hV hspelled v payload]
  | .int n, w, h, out => by
    cases hV _ _ h
    rfl
  | .bool b, w, h, out => by
    cases hV _ _ h
    rfl
  | .str s, w, h, out => by
    cases hV _ _ h
    rfl
  | .unit, w, h, out => by
    cases hV _ _ h
    rfl
  | .closure code env, w, h, out => by
    cases hV _ _ h
    rfl
  | .capability handle, w, h, out => by
    cases hV _ _ h with
    | capability name => simp only [Value.textAfter, hspelled _ _ name]

theorem fieldsAfter_eq (hV : FaithfulUnder N V) (hspelled : SpelledAlike N names₁ names₂) :
    ∀ (fs : List (Name × Value)) {gs : List (Name × Value)}, Entrywise N V fs gs →
      ∀ out separator : String,
        Value.fieldsAfter names₁ out separator fs = Value.fieldsAfter names₂ out separator gs
  | [], _, .nil, out, separator => rfl
  | (x, v) :: fs, _, .cons key content rest, out, separator => by
    simp only [Value.fieldsAfter, hspelled _ _ key, textAfter_eq hV hspelled v content,
      fieldsAfter_eq hV hspelled fs rest]

end

/-- **Related values have the same text.** -/
theorem text_eq (hV : FaithfulUnder N V) (hspelled : SpelledAlike N names₁ names₂) {v w : Value}
    (h : V v w) : v.text names₁ = w.text names₂ :=
  hV.textAfter_eq hspelled v h ""

mutual

/-- **Related values compare the same.** -/
theorem equals_eq (hV : FaithfulUnder N V) (hN : BiUnique N) :
    ∀ (v : Value) {v' w w' : Value}, V v v' → V w w' → v.equals w = v'.equals w'
  | .record s fs, v', w, w', hv, hw => by
    cases hV _ _ hv with
    | record _ s' fields =>
      cases hV _ _ hw with
      | record t t' others =>
        simp only [Value.equals, fields.length_eq, others.length_eq,
          equalsFields_eq hV hN fs fields others]
      | _ => simp only [Value.equals, Value.typeName]
  | .variant tag v, v', w, w', hv, hw => by
    cases hV _ _ hv with
    | variant htag payload =>
      cases hV _ _ hw with
      | variant htag' payload' =>
        have hsame := Relator.rel_eq hN htag htag'
        simp only [Value.equals, hsame, equals_eq hV hN v payload payload']
      | _ => simp only [Value.equals, Value.typeName]
  | .closure code env, v', w, w', hv, hw => by
    cases hV _ _ hv
    simp only [Value.equals]
  | .capability handle, v', w, w', hv, hw => by
    cases hV _ _ hv
    simp only [Value.equals]
  | .int n, v', w, w', hv, hw => by
    cases hV _ _ hv
    cases hV _ _ hw <;> simp only [Value.equals, Value.typeName]
  | .bool b, v', w, w', hv, hw => by
    cases hV _ _ hv
    cases hV _ _ hw <;> simp only [Value.equals, Value.typeName]
  | .str s, v', w, w', hv, hw => by
    cases hV _ _ hv
    cases hV _ _ hw <;> simp only [Value.equals, Value.typeName]
  | .unit, v', w, w', hv, hw => by
    cases hV _ _ hv
    cases hV _ _ hw <;> simp only [Value.equals, Value.typeName]

theorem equalsFields_eq (hV : FaithfulUnder N V) (hN : BiUnique N) :
    ∀ (fs : List (Name × Value)) {fs' gs gs' : List (Name × Value)}, Entrywise N V fs fs' →
      Entrywise N V gs gs' → Value.equalsFields gs fs = Value.equalsFields gs' fs'
  | [], _, gs, gs', .nil, hg => by simp only [Value.equalsFields]
  | (x, v) :: fs, _, gs, gs', .cons key content rest, hg => by
    have hfield := hg.field? hN key
    simp only [Value.equalsFields]
    generalize Value.field? x gs = found at hfield ⊢
    generalize Value.field? _ gs' = found' at hfield ⊢
    cases hfield with
    | none => rfl
    | some hu => simp only [equals_eq hV hN v content hu, equalsFields_eq hV hN fs rest hg]

end

/-! ## Matches -/

theorem fits_eq (hV : FaithfulUnder N V) (l : Literal) {v w : Value} (h : V v w) :
    l.fits v = l.fits w := by
  cases hV v w h <;> cases l <;> rfl

mutual

/-- A match of related values comes to the same, with corresponding bindings. -/
theorem matchOnto_rel (hV : FaithfulUnder N V) (hN : BiUnique N) :
    ∀ (p : Pattern) {q : Pattern} {v w : Value} {bs cs : List (Name × Value)}, p.Akin N q →
      V v w → Entrywise N V bs cs →
        (p.matchOnto v bs).1 = (q.matchOnto w cs).1 ∧
          Entrywise N V (p.matchOnto v bs).2 (q.matchOnto w cs).2
  | .wildcard, q, v, w, bs, cs, hp, h, hb => by
    cases hp
    simp only [Pattern.matchOnto]
    exact ⟨trivial, hb⟩
  | .bind x, q, v, w, bs, cs, hp, h, hb => by
    cases hp with
    | bind name =>
      simp only [Pattern.matchOnto]
      exact ⟨trivial, hb.append (.cons name h .nil)⟩
  | .literal l, q, v, w, bs, cs, hp, h, hb => by
    cases hp
    simp only [Pattern.matchOnto]
    exact ⟨hV.fits_eq l h, hb⟩
  | .variant t p, q, v, w, bs, cs, hp, h, hb => by
    cases hp with
    | variant htag hpayload =>
      cases hV v w h with
      | @variant t' u' v w htag' payload =>
        have hsame := Relator.rel_eq hN htag htag'
        simp only [Pattern.matchOnto]
        by_cases ht : t = t'
        · rw [if_pos ht, if_pos (hsame.mp ht)]
          exact matchOnto_rel hV hN p hpayload payload hb
        · rw [if_neg ht, if_neg fun hu => ht (hsame.mpr hu)]
          exact ⟨rfl, hb⟩
      | _ =>
        simp only [Pattern.matchOnto]
        exact ⟨trivial, hb⟩
  | .record ps, q, v, w, bs, cs, hp, h, hb => by
    cases hp with
    | record hps =>
      cases hV v w h with
      | record s₁ s₂ fields =>
        simp only [Pattern.matchOnto]
        exact matchFieldsOnto_rel hV hN fields ps hps hb
      | unit =>
        simp only [Pattern.matchOnto]
        exact ⟨by cases hps <;> rfl, hb⟩
      | _ =>
        simp only [Pattern.matchOnto]
        exact ⟨trivial, hb⟩

theorem matchFieldsOnto_rel (hV : FaithfulUnder N V) (hN : BiUnique N)
    {fs gs : List (Name × Value)} (hf : Entrywise N V fs gs) :
    ∀ (ps : List (Name × Pattern)) {qs : List (Name × Pattern)} {bs cs : List (Name × Value)},
      Entrywise N (Pattern.Akin N) ps qs → Entrywise N V bs cs →
        (Pattern.matchFieldsOnto fs ps bs).1 = (Pattern.matchFieldsOnto gs qs cs).1 ∧
          Entrywise N V (Pattern.matchFieldsOnto fs ps bs).2 (Pattern.matchFieldsOnto gs qs cs).2
  | [], _, bs, cs, .nil, hb => by
    simp only [Pattern.matchFieldsOnto]
    exact ⟨trivial, hb⟩
  | (x, p) :: ps, (y, q) :: qs, bs, cs, .cons key content rest, hb => by
    have hfield := hf.field? hN key
    simp only [Pattern.matchFieldsOnto]
    generalize Value.field? x fs = found at hfield ⊢
    generalize Value.field? y gs = found' at hfield ⊢
    cases hfield with
    | none => exact ⟨rfl, hb⟩
    | @some v w hv =>
      have hmatch := matchOnto_rel hV hN p content hv hb
      simp only
      generalize p.matchOnto v bs = r at hmatch ⊢
      generalize q.matchOnto w cs = r' at hmatch ⊢
      obtain ⟨fits, bs'⟩ := r
      obtain ⟨fits', cs'⟩ := r'
      obtain ⟨rfl, hbindings⟩ : fits = fits' ∧ Entrywise N V bs' cs' := hmatch
      cases fits with
      | true => exact matchFieldsOnto_rel hV hN hf ps rest hbindings
      | false => exact ⟨rfl, hbindings⟩

end

/-- **Related values match corresponding patterns**, with corresponding bindings. -/
theorem match?_rel (hV : FaithfulUnder N V) (hN : BiUnique N) {p q : Pattern} (hp : p.Akin N q)
    {v w : Value} (h : V v w) : Option.Rel (Entrywise N V) (p.match? v) (q.match? w) := by
  have hmatch := matchOnto_rel hV hN p hp h .nil
  unfold Pattern.match?
  generalize p.matchOnto v [] = r at hmatch ⊢
  generalize q.matchOnto w [] = r' at hmatch ⊢
  obtain ⟨fits, bs⟩ := r
  obtain ⟨fits', cs⟩ := r'
  obtain ⟨rfl, hbindings⟩ : fits = fits' ∧ Entrywise N V bs cs := hmatch
  cases fits with
  | true => exact .some hbindings
  | false => exact .none

end FaithfulUnder
end Value

/-! ## Operators -/

namespace Operator

variable {N : Name → Name → Prop} {V : Value → Value → Prop} {α β : Type} {vs ws : List Value}

section Operands

variable (op : Operator)

theorem unary_akin {operand : Value → Except Cause α} (f : α → Except Cause Value)
    (ho : ∀ v w, V v w → operand v = operand w) (h : List.Forall₂ V vs ws) :
    op.unary operand f vs = op.unary operand f ws := by
  match h with
  | .nil => rfl
  | .cons hv .nil => simp only [unary, ho _ _ hv]
  | .cons _ (.cons _ rest) => simp only [unary, List.length_cons, rest.length_eq]

theorem binary_akin {left : Value → Except Cause α} {right : Value → Except Cause β}
    {f : α → β → Except Cause Value}
    (hf : ∀ v v' w w', V v v' → V w w' →
      op.binary left right f [v, w] = op.binary left right f [v', w'])
    (h : List.Forall₂ V vs ws) : op.binary left right f vs = op.binary left right f ws := by
  match h with
  | .nil => rfl
  | .cons _ .nil => rfl
  | .cons hv (.cons hw .nil) => exact hf _ _ _ _ hv hw
  | .cons _ (.cons _ (.cons _ rest)) => simp only [binary, List.length_cons, rest.length_eq]

variable (hV : Value.FaithfulUnder N V)
include hV

theorem expectInt_akin (v w : Value) (h : V v w) : v.expectInt = w.expectInt := by
  cases hV v w h <;> rfl

theorem expectBool_akin (v w : Value) (h : V v w) : v.expectBool = w.expectBool := by
  cases hV v w h <;> rfl

theorem expectStr_akin (v w : Value) (h : V v w) : v.expectStr = w.expectStr := by
  cases hV v w h <;> rfl

theorem ints_akin (f : Int64 → Int64 → Except Cause Value) (h : List.Forall₂ V vs ws) :
    op.ints f vs = op.ints f ws := by
  refine op.binary_akin (fun v v' w w' hv hw => ?_) h
  simp only [binary, expectInt_akin hV v v' hv, expectInt_akin hV w w' hw]

theorem bools_akin (f : Bool → Bool → Bool) (h : List.Forall₂ V vs ws) :
    op.bools f vs = op.bools f ws := by
  refine op.binary_akin (fun v v' w w' hv hw => ?_) h
  simp only [binary, expectBool_akin hV v v' hv, expectBool_akin hV w w' hw]

end Operands

/-- **Corresponding operators compute the same from related operands.** -/
theorem compute_akin (hV : Value.FaithfulUnder N V) (hN : BiUnique N) {op₁ op₂ : Operator}
    (hop : op₁.Akin N op₂) (h : List.Forall₂ V vs ws) : op₁.compute vs = op₂.compute ws := by
  cases hop with
  | capability name => simp only [compute, wrongCount, text, arity, h.length_eq]
  | invoke name => simp only [compute, wrongCount, text, arity, h.length_eq]
  | plain nameless =>
    cases op₁ with
    | intNeg | intAbs => exact unary_akin _ _ (expectInt_akin hV) h
    | boolNot => exact unary_akin _ _ (expectBool_akin hV) h
    | strLength => exact unary_akin _ _ (expectStr_akin hV) h
    | boolAnd | boolOr => exact bools_akin _ hV _ h
    | strConcat =>
      refine binary_akin _ (fun v v' w w' hv hw => ?_) h
      simp only [binary, expectStr_akin hV v v' hv, expectStr_akin hV w w' hw]
    | strSubstr =>
      refine binary_akin _ (fun v v' w w' hv hw => ?_) h
      simp only [binary, expectStr_akin hV v v' hv, expectInt_akin hV w w' hw]
    | equal =>
      refine binary_akin _ (fun v v' w w' hv hw => ?_) h
      show Value.bool <$> v.equals w = Value.bool <$> v'.equals w'
      rw [hV.equals_eq hN v hv hw]
    | capability x | invoke method => cases nameless
    | intAdd | intSub | intMul | intDiv | intMod | intPow | intLt | intLe | intGt | intGe =>
      exact ints_akin _ hV _ h

end Operator

/-! ## Requests to writers and readers -/

section Requests

variable {N : Name → Name → Prop} {V : Value → Value → Prop} (method : String) {vs ws : List Value}
  (h : List.Forall₂ V vs ws)
include h

theorem Sink.request_akin (hV : Value.FaithfulUnder N V) :
    Sink.request method vs = Sink.request method ws := by
  unfold Sink.request
  split
  · cases h with
    | nil => rfl
    | cons head rest => cases hV _ _ head <;> rfl
  · rfl

theorem Origin.request_eq : Origin.request method vs = Origin.request method ws := by
  unfold Origin.request
  cases h with
  | nil => rfl
  | cons head rest => simp only [List.isEmpty_cons, List.length_cons, rest.length_eq]

end Requests
end CapLang
