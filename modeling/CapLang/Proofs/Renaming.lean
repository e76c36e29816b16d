import CapLang.Proofs.AkinWorlds
import CapLang.Proofs.FreeOccurrences

/-!
# Names stand for nothing but their texts

A name is a position in a table, and which position a text gets depends on the order in which texts
were met.  Programs cannot find out: if two programs are equal up to a one-to-one correspondence of
their names, and corresponding names are spelled alike, then the two run in tandem
(`renaming_tandem`).  They come to corresponding values or to the very same fault, count the same,
make the same calls, and have corresponding free variables (`renaming_unobservable`).
-/
namespace CapLang

open Relator (BiUnique)

/-- What corresponds to what in two programs and their runs: names to names, code numbers to code
numbers, and stamps to stamps. -/
structure Renaming where
  name : Name → Name → Prop
  code : CodeId → CodeId → Prop
  stamp : Stamp → Stamp → Prop

variable (ρ : Renaming)

/-! ## Terms and values up to names -/

/-- Headers that are equal up to corresponding names. -/
structure Header.Renamed (h k : Header) : Prop where
  name : Option.Rel ρ.name h.name k.name
  params : List.Forall₂ ρ.name h.params k.params

structure GroupHeader.Renamed (g g' : GroupHeader) : Prop where
  binder : ρ.name g.binder g'.binder
  header : g.header.Renamed ρ g'.header

/-- **Terms that are equal up to corresponding names**, and read from the same places. -/
inductive Term.Renamed : Term → Term → Prop
  | literal (span : Option Span) (l : Literal) : Term.Renamed (.literal span l) (.literal span l)
  | var (span : Option Span) {x y : Name} (name : ρ.name x y) :
      Term.Renamed (.var span x) (.var span y)
  | lambda (span : Option Span) {id₁ id₂ : CodeId} {h k : Header} {t u : Term}
      (code : ρ.code id₁ id₂) (header : h.Renamed ρ k) (body : Term.Renamed t u) :
      Term.Renamed (.lambda span id₁ h t) (.lambda span id₂ k u)
  | app (span : Option Span) {f g : Term} {as bs : List Term} (func : Term.Renamed f g)
      (args : List.Forall₂ Term.Renamed as bs) : Term.Renamed (.app span f as) (.app span g bs)
  | letIn (span : Option Span) {x y : Name} {a b t u : Term} (name : ρ.name x y)
      (value : Term.Renamed a b) (body : Term.Renamed t u) :
      Term.Renamed (.letIn span x a t) (.letIn span y b u)
  | letRec (span : Option Span) {id₁ id₂ : CodeId} {fs gs : List (GroupHeader × Term)}
      {t u : Term} (code : ρ.code id₁ id₂)
      (functions : Entrywise (GroupHeader.Renamed ρ) Term.Renamed fs gs)
      (body : Term.Renamed t u) : Term.Renamed (.letRec span id₁ fs t) (.letRec span id₂ gs u)
  | ifThenElse (span : Option Span) {c d t u t' u' : Term} (cond : Term.Renamed c d)
      (thenBranch : Term.Renamed t u) (elseBranch : Term.Renamed t' u') :
      Term.Renamed (.ifThenElse span c t t') (.ifThenElse span d u u')
  | caseOf (span : Option Span) {a b : Term} {as bs : List (Pattern × Term)}
      (scrutinee : Term.Renamed a b)
      (alternatives : Entrywise (Pattern.Akin ρ.name) Term.Renamed as bs) :
      Term.Renamed (.caseOf span a as) (.caseOf span b bs)
  | record (span : Option Span) {fs gs : List (Name × Term)}
      (fields : Entrywise ρ.name Term.Renamed fs gs) :
      Term.Renamed (.record span fs) (.record span gs)
  | field (span : Option Span) {a b : Term} {x y : Name} (base : Term.Renamed a b)
      (name : ρ.name x y) : Term.Renamed (.field span a x) (.field span b y)
  | variant (span : Option Span) {t u : Name} {a b : Term} (tag : ρ.name t u)
      (payload : Term.Renamed a b) : Term.Renamed (.variant span t a) (.variant span u b)
  | prim (span : Option Span) {op₁ op₂ : Operator} {as bs : List Term}
      (operator : op₁.Akin ρ.name op₂) (args : List.Forall₂ Term.Renamed as bs) :
      Term.Renamed (.prim span op₁ as) (.prim span op₂ bs)

/-- Code that is equal up to corresponding names. -/
inductive Code.Renamed : Code → Code → Prop
  | lambda {id₁ id₂ : CodeId} {h k : Header} {t u : Term} (code : ρ.code id₁ id₂)
      (header : h.Renamed ρ k) (body : t.Renamed ρ u) :
      Code.Renamed (.lambda id₁ h t) (.lambda id₂ k u)
  | member {id₁ id₂ : CodeId} {fs gs : List (GroupHeader × Term)} (i : Nat)
      (code : ρ.code id₁ id₂)
      (functions : Entrywise (GroupHeader.Renamed ρ) (Term.Renamed ρ) fs gs) :
      Code.Renamed (.member id₁ fs i) (.member id₂ gs i)

mutual

/-- **Values that are equal up to corresponding names**, in what functions remember as well. -/
inductive Value.Renamed : Value → Value → Prop
  | int (n : Int64) : Value.Renamed (.int n) (.int n)
  | bool (b : Bool) : Value.Renamed (.bool b) (.bool b)
  | str (s : String) : Value.Renamed (.str s) (.str s)
  | unit : Value.Renamed .unit .unit
  | closure {c d : Code} {env₁ env₂ : Env} (code : c.Renamed ρ d)
      (env : Env.Renamed env₁ env₂) : Value.Renamed (.closure c env₁) (.closure d env₂)
  | record {s₁ s₂ : Stamp} {vs ws : List (Name × Value)} (stamp : ρ.stamp s₁ s₂)
      (fields : Entrywise ρ.name Value.Renamed vs ws) :
      Value.Renamed (.record s₁ vs) (.record s₂ ws)
  | variant {t u : Name} {v w : Value} (tag : ρ.name t u) (payload : Value.Renamed v w) :
      Value.Renamed (.variant t v) (.variant u w)
  | capability {h k : Handle} (handle : h.Akin ρ.name k) :
      Value.Renamed (.capability h) (.capability k)

/-- Environments that are equal up to corresponding names. -/
inductive Env.Renamed : Env → Env → Prop
  | empty : Env.Renamed .empty .empty
  | frame {s₁ s₂ : Stamp} {vs ws : List (Name × Value)} {env₁ env₂ : Env}
      (stamp : ρ.stamp s₁ s₂) (bindings : Entrywise ρ.name Value.Renamed vs ws)
      (outer : Env.Renamed env₁ env₂) :
      Env.Renamed (.frame s₁ vs env₁) (.frame s₂ ws env₂)

end

/-- Under corresponding names the same objects are registered, or none. -/
def Registry.Renamed (r s : Registry) : Prop :=
  ∀ x y, ρ.name x y → Option.Rel (Handle.Akin ρ.name) (r.find? x) (s.find? y)

/-- Worlds with the same objects in the same states, after corresponding calls, that give out
corresponding stamps. -/
structure World.Renamed (w₁ w₂ : World) : Prop where
  akin : w₁.Akin ρ.name (Value.Renamed ρ) w₂
  stamps : ∀ n, ρ.stamp ⟨w₁.stamps + n⟩ ⟨w₂.stamps + n⟩

variable {ρ}

/-! ## Names of code -/

theorem Code.Renamed.params {c d : Code} (h : c.Renamed ρ d) :
    List.Forall₂ ρ.name c.params d.params := by
  cases h with
  | lambda code header body => exact header.params
  | @member id₁ id₂ fs gs i code functions =>
    have hfunction := functions.getElem? i
    simp only [Code.params, Code.header]
    generalize fs[i]? = found₁ at hfunction ⊢
    generalize gs[i]? = found₂ at hfunction ⊢
    cases hfunction with
    | none => exact .nil
    | some hf => exact hf.1.header.params

theorem Code.Renamed.body {c d : Code} (h : c.Renamed ρ d) : c.body.Renamed ρ d.body := by
  cases h with
  | lambda code header body => exact body
  | @member id₁ id₂ fs gs i code functions =>
    have hfunction := functions.getElem? i
    simp only [Code.body]
    generalize fs[i]? = found₁ at hfunction ⊢
    generalize gs[i]? = found₂ at hfunction ⊢
    cases hfunction with
    | none => exact .literal none .unit
    | some hf => exact hf.2

theorem Code.Renamed.akin {c d : Code} (h : c.Renamed ρ d) : c.Akin ρ.name d where
  isMember := by cases h <;> rfl
  arity := h.params.length_eq
  name := by
    cases h with
    | lambda code header body => exact header.name
    | @member id₁ id₂ fs gs i code functions =>
      have hfunction := functions.getElem? i
      simp only [Code.name?]
      generalize fs[i]? = found₁ at hfunction ⊢
      generalize gs[i]? = found₂ at hfunction ⊢
      cases hfunction with
      | none => exact .none
      | some hf => exact .some hf.1.binder

theorem Value.renamed_faithful : Value.FaithfulUnder ρ.name (Value.Renamed ρ) := by
  intro v w h
  cases h with
  | int n => exact .int n
  | bool b => exact .bool b
  | str s => exact .str s
  | unit => exact .unit
  | closure code env => exact .closure code.akin _ _
  | record stamp fields => exact .record _ _ fields
  | variant tag payload => exact .variant tag payload
  | capability handle => exact .capability handle.name

theorem Value.renamed_literal (l : Literal) :
    (Value.ofLiteral l).Renamed ρ (Value.ofLiteral l) := by
  cases l with
  | int n => exact .int n
  | bool b => exact .bool b
  | str s => exact .str s
  | unit => exact .unit

/-! ## Environments -/

namespace Env.Renamed

variable {env₁ env₂ : Env}

/-- Corresponding names stand for corresponding values. -/
theorem lookup (hone : BiUnique ρ.name) {x y : Name} (hxy : ρ.name x y) :
    ∀ {env₁ env₂ : Env}, env₁.Renamed ρ env₂ →
      Option.Rel (Value.Renamed ρ) (env₁.lookup x) (env₂.lookup y)
  | .empty, _, .empty => .none
  | .frame _ _ _, _, .frame _ bindings outer =>
    bindings.lookup_frame hone _ _ hxy fun _ => lookup hone hxy outer

theorem extendMany (h : env₁.Renamed ρ env₂) {s₁ s₂ : Stamp} (stamp : ρ.stamp s₁ s₂)
    {vs ws : List (Name × Value)} (hbindings : Entrywise ρ.name (Value.Renamed ρ) vs ws) :
    (env₁.extendMany s₁ vs).Renamed ρ (env₂.extendMany s₂ ws) := by
  cases hbindings with
  | nil => exact h
  | cons key content rest => exact .frame stamp (.cons key content rest) h

theorem bindGroup (h : env₁.Renamed ρ env₂) {s₁ s₂ : Stamp} (stamp : ρ.stamp s₁ s₂)
    {id₁ id₂ : CodeId} {fs gs : List (GroupHeader × Term)} (hcode : ρ.code id₁ id₂)
    (hfunctions : Entrywise (GroupHeader.Renamed ρ) (Term.Renamed ρ) fs gs) :
    (env₁.bindGroup s₁ id₁ fs).Renamed ρ (env₂.bindGroup s₂ id₂ gs) :=
  h.extendMany stamp (hfunctions.mapIdx (fun _ _ _ hg _ => hg.binder) fun i _ _ _ _ =>
    .closure (.member i hcode hfunctions) h)

/-- The body of a function runs in corresponding environments. -/
theorem body {c d : Code} (hcode : c.Renamed ρ d) (h : env₁.Renamed ρ env₂)
    {args₁ args₂ : List Value} (ha : List.Forall₂ (Value.Renamed ρ) args₁ args₂)
    {s₁ s₂ s₁' s₂' : Stamp} (hs : ρ.stamp s₁ s₂) (hs' : ρ.stamp s₁' s₂') :
    ((env₁.ofCode s₁ c).extendMany s₁' (c.params.zip args₁)).Renamed ρ
      ((env₂.ofCode s₂ d).extendMany s₂' (d.params.zip args₂)) := by
  refine extendMany ?_ hs' (.zip hcode.params ha)
  cases hcode with
  | lambda code header body => exact h
  | member i code functions => exact h.bindGroup hs code functions

end Env.Renamed

/-! ## Free variables -/

/-- Occurrences of corresponding names at one place. -/
structure FreeVariable.Akin (N : Name → Name → Prop) (o p : FreeVariable) : Prop where
  name : N o.name p.name
  span : o.span = p.span

namespace FreeVariable

variable {N : Name → Name → Prop} (hone : BiUnique N) {found₁ found₂ os ps : List FreeVariable}
include hone

theorem outside_akin {bound₁ bound₂ : List Name} (hbound : List.Forall₂ N bound₁ bound₂)
    (h : List.Forall₂ (FreeVariable.Akin N) os ps) :
    List.Forall₂ (FreeVariable.Akin N) (outside bound₁ os) (outside bound₂ ps) := by
  refine List.rel_filter (fun o p hop => ?_) h
  have hmem := List.rel_mem hone hop.name hbound
  simp only [Bool.not_eq_true', List.contains_eq_mem, decide_eq_false_iff_not]
  exact not_congr hmem

theorem note_akin (hfound : List.Forall₂ (FreeVariable.Akin N) found₁ found₂)
    {o p : FreeVariable} (hop : o.Akin N p) :
    List.Forall₂ (FreeVariable.Akin N) (note o.name o.span found₁) (note p.name p.span found₂) := by
  have hany : found₁.any (·.name == o.name) = found₂.any (·.name == p.name) := by
    induction hfound with
    | nil => rfl
    | @cons a b as bs head rest ih =>
      have hsame : (a.name == o.name) = (b.name == p.name) := by
        rw [Bool.eq_iff_iff, beq_iff_eq, beq_iff_eq]
        exact Relator.rel_eq hone head.name hop.name
      rw [List.any_cons, List.any_cons, ih, hsame]
  unfold note
  rw [hany]
  split
  · exact hfound
  · exact .cons ⟨hop.name, hop.span⟩ hfound

theorem noteAll_akin (h : List.Forall₂ (FreeVariable.Akin N) os ps)
    (hfound : List.Forall₂ (FreeVariable.Akin N) found₁ found₂) :
    List.Forall₂ (FreeVariable.Akin N) (noteAll os found₁) (noteAll ps found₂) := by
  induction h generalizing found₁ found₂ with
  | nil => exact hfound
  | cons head rest ih => exact ih (note_akin hone hfound head)

end FreeVariable

mutual

/-- Corresponding patterns bind corresponding names. -/
theorem Pattern.Akin.boundNames {N : Name → Name → Prop} :
    ∀ (p : Pattern) {q : Pattern}, p.Akin N q → List.Forall₂ N p.boundNames q.boundNames
  | .wildcard, _, .wildcard => .nil
  | .bind _, _, .bind name => .cons name .nil
  | .literal _, _, .literal _ => .nil
  | .variant _ p, _, .variant _ payload => (boundNames p payload :)
  | .record ps, _, .record fields => boundNamesOfFields ps fields
termination_by structural p => p

theorem Pattern.Akin.boundNamesOfFields {N : Name → Name → Prop} :
    ∀ (ps : List (Name × Pattern)) {qs : List (Name × Pattern)},
      Entrywise N (Pattern.Akin N) ps qs →
        List.Forall₂ N (Pattern.boundNamesOfFields ps) (Pattern.boundNamesOfFields qs)
  | [], _, .nil => .nil
  | (_, p) :: ps, _, .cons _ content rest =>
    List.rel_append (boundNames p content) (boundNamesOfFields ps rest)
termination_by structural ps => ps

end

theorem binders_renamed {fs gs : List (GroupHeader × Term)}
    (h : Entrywise (GroupHeader.Renamed ρ) (Term.Renamed ρ) fs gs) :
    List.Forall₂ ρ.name (fs.map (·.1.binder)) (gs.map (·.1.binder)) := by
  rw [List.forall₂_map_left_iff, List.forall₂_map_right_iff]
  exact h.forall₂ fun _ _ header _ => header.binder

namespace Term.Renamed

mutual

/-- **What is free in terms that are equal up to names corresponds**, occurrence by occurrence. -/
theorem freeOccurrences (hone : BiUnique ρ.name) : ∀ (t : Term) {u : Term}, t.Renamed ρ u →
    List.Forall₂ (FreeVariable.Akin ρ.name) t.freeOccurrences u.freeOccurrences
  | .literal .., _, .literal .. => .nil
  | .var .., _, .var _ name => .cons ⟨name, rfl⟩ .nil
  | .lambda _ _ _ t, _, .lambda _ _ header body =>
    FreeVariable.outside_akin hone header.params (freeOccurrences hone t body)
  | .app _ f as, _, .app _ func args =>
    List.rel_append (freeOccurrences hone f func) (occurrencesOfAll hone as args)
  | .letIn _ _ a t, _, .letIn _ name value body =>
    List.rel_append (freeOccurrences hone a value)
      (FreeVariable.outside_akin hone (.cons name .nil) (freeOccurrences hone t body))
  | .letRec _ _ fs t, _, .letRec _ _ functions body =>
    FreeVariable.outside_akin hone (binders_renamed functions)
      (List.rel_append (occurrencesOfGroup hone fs functions) (freeOccurrences hone t body))
  | .ifThenElse _ c t t', _, .ifThenElse _ cond thenBranch elseBranch =>
    List.rel_append (freeOccurrences hone c cond)
      (List.rel_append (freeOccurrences hone t thenBranch) (freeOccurrences hone t' elseBranch))
  | .caseOf _ a as, _, .caseOf _ scrutinee alternatives =>
    List.rel_append (freeOccurrences hone a scrutinee)
      (occurrencesOfAlternatives hone as alternatives)
  | .record _ fs, _, .record _ fields => occurrencesOfFields hone fs fields
  | .field _ a _, _, .field _ base _ => (freeOccurrences hone a base :)
  | .variant _ _ a, _, .variant _ _ payload => (freeOccurrences hone a payload :)
  | .prim _ _ as, _, .prim _ _ args => occurrencesOfAll hone as args
termination_by structural t => t

theorem occurrencesOfAll (hone : BiUnique ρ.name) : ∀ (ts : List Term) {us : List Term},
    List.Forall₂ (Term.Renamed ρ) ts us →
      List.Forall₂ (FreeVariable.Akin ρ.name) (Term.occurrencesOfAll ts) (Term.occurrencesOfAll us)
  | [], _, .nil => .nil
  | t :: ts, _, .cons head rest =>
    List.rel_append (freeOccurrences hone t head) (occurrencesOfAll hone ts rest)
termination_by structural ts => ts

theorem occurrencesOfGroup (hone : BiUnique ρ.name) : ∀ (fs : List (GroupHeader × Term))
    {gs : List (GroupHeader × Term)}, Entrywise (GroupHeader.Renamed ρ) (Term.Renamed ρ) fs gs →
      List.Forall₂ (FreeVariable.Akin ρ.name) (Term.occurrencesOfGroup fs)
        (Term.occurrencesOfGroup gs)
  | [], _, .nil => .nil
  | (_, t) :: fs, _, .cons key content rest =>
    List.rel_append
      (FreeVariable.outside_akin hone key.header.params (freeOccurrences hone t content))
      (occurrencesOfGroup hone fs rest)
termination_by structural fs => fs

theorem occurrencesOfAlternatives (hone : BiUnique ρ.name) : ∀ (as : List (Pattern × Term))
    {bs : List (Pattern × Term)}, Entrywise (Pattern.Akin ρ.name) (Term.Renamed ρ) as bs →
      List.Forall₂ (FreeVariable.Akin ρ.name) (Term.occurrencesOfAlternatives as)
        (Term.occurrencesOfAlternatives bs)
  | [], _, .nil => .nil
  | (p, t) :: as, _, .cons key content rest =>
    List.rel_append
      (FreeVariable.outside_akin hone (key.boundNames p) (freeOccurrences hone t content))
      (occurrencesOfAlternatives hone as rest)
termination_by structural as => as

theorem occurrencesOfFields (hone : BiUnique ρ.name) : ∀ (fs : List (Name × Term))
    {gs : List (Name × Term)}, Entrywise ρ.name (Term.Renamed ρ) fs gs →
      List.Forall₂ (FreeVariable.Akin ρ.name) (Term.occurrencesOfFields fs)
        (Term.occurrencesOfFields gs)
  | [], _, .nil => .nil
  | (_, t) :: fs, _, .cons _ content rest =>
    List.rel_append (freeOccurrences hone t content) (occurrencesOfFields hone fs rest)
termination_by structural fs => fs

end

theorem freeVariables (hone : BiUnique ρ.name) {t u : Term} (ht : t.Renamed ρ u) :
    List.Forall₂ (FreeVariable.Akin ρ.name) t.freeVariables u.freeVariables := by
  rw [Term.freeVariables_eq, Term.freeVariables_eq]
  exact List.rel_reverse (FreeVariable.noteAll_akin hone (freeOccurrences hone t ht) .nil)

end Term.Renamed

/-! ## Runs -/

section Runs

variable {names₁ names₂ : NameTable} {registry₁ registry₂ : Registry}
  (hone : BiUnique ρ.name) (hspelled : SpelledAlike ρ.name names₁ names₂)
  (hregistry : registry₁.Renamed ρ registry₂)
include hone

/-- Terms that are equal up to names begin alike, in environments that are. -/
theorem Term.Renamed.layer {env₁ env₂ : Env} (henv : env₁.Renamed ρ env₂) {t u : Term}
    (ht : t.Renamed ρ u) : Layer ρ.name (Value.Renamed ρ)
      (fun env₁ env₂ t u => env₁.Renamed ρ env₂ ∧ t.Renamed ρ u) ρ.stamp env₁ env₂ t u := by
  cases ht with
  | literal span l => exact .value rfl rfl (Value.renamed_literal l)
  | @var span x y name =>
    have hlookup := henv.lookup hone name
    generalize hx : env₁.lookup x = found₁ at hlookup
    generalize hy : env₂.lookup y = found₂ at hlookup
    cases hlookup with
    | none => exact .unbound name hx hy
    | some hv => exact .value hx hy hv
  | lambda span code header body => exact .value rfl rfl (.closure (.lambda code header body) henv)
  | app span func args => exact .app ⟨henv, func⟩ (args.imp fun _ _ ha => ⟨henv, ha⟩)
  | letIn span name value body =>
    exact .letIn ⟨henv, value⟩ fun _ _ _ _ hs hv =>
      ⟨henv.extendMany hs (.cons name hv .nil), body⟩
  | letRec span code functions body =>
    exact .letRec fun _ _ hs => ⟨henv.bindGroup hs code functions, body⟩
  | ifThenElse span cond thenBranch elseBranch =>
    exact .ifThenElse ⟨henv, cond⟩ ⟨henv, thenBranch⟩ ⟨henv, elseBranch⟩
  | caseOf span scrutinee alternatives =>
    exact .caseOf ⟨henv, scrutinee⟩ (alternatives.forall₂ fun _ _ hpattern hbody =>
      ⟨hpattern, fun _ _ _ _ hs _ hvs => ⟨henv.extendMany hs hvs, hbody⟩⟩)
  | record span fields => exact .record (fields.mono (fun _ _ h => h) fun _ _ ha => ⟨henv, ha⟩)
  | field span base name => exact .field ⟨henv, base⟩ name
  | variant span tag payload => exact .variant tag ⟨henv, payload⟩
  | prim span operator args => exact .prim operator (args.imp fun _ _ ha => ⟨henv, ha⟩)

include hspelled hregistry

/-- **Programs that are equal up to names evaluate in tandem.** -/
theorem renaming_tandem : Tandem ⟨names₁, registry₁, World.invoke⟩ ⟨names₂, registry₂, World.invoke⟩
    ρ.name (Value.Renamed ρ) (fun env₁ env₂ t u => env₁.Renamed ρ env₂ ∧ t.Renamed ρ u) ρ.stamp
    (World.Renamed ρ) where
  oneToOne := hone
  spelled := hspelled
  faithful := Value.renamed_faithful
  literal := Value.renamed_literal
  layer h := h.2.layer hone h.1
  ofFields hs hvs := by
    cases hvs with
    | nil => exact .unit
    | cons key content rest => exact .record hs (.cons key content rest)
  variant := .variant
  body hf ha _ _ _ _ _ hs hs' := by
    cases hf with
    | closure code env => exact ⟨.body code env ha hs hs', code.body⟩
  stamp {w₁ w₂} hw := by
    refine ⟨hw.stamps 0, hw.akin.stamp, fun n => ?_⟩
    show ρ.stamp ⟨w₁.stamps + 1 + n⟩ ⟨w₂.stamps + 1 + n⟩
    rw [Nat.add_assoc, Nat.add_assoc]
    exact hw.stamps (1 + n)
  fetch {env₁ env₂ span x y as bs} hxy _ := by
    have hfind := hregistry x y hxy
    show Option.Rel _ (registry₁.find? x) (registry₂.find? y)
    generalize registry₁.find? x = found₁ at hfind ⊢
    generalize registry₂.find? y = found₂ at hfind ⊢
    cases hfind with
    | none => exact .none
    | some handle => exact .some (.capability handle)
  host {h k method args₁ args₂ w₁ w₂} hh ha hw := by
    cases hh with
    | capability handle =>
      obtain ⟨hanswer, hakin⟩ := hw.akin.invoke Value.renamed_literal Value.renamed_faithful handle
        method ha
      refine ⟨hanswer, hakin, fun n => ?_⟩
      show ρ.stamp ⟨(w₁.invoke h method args₁).2.stamps + n⟩
        ⟨(w₂.invoke k method args₂).2.stamps + n⟩
      rw [World.invoke_stamps, World.invoke_stamps]
      exact hw.stamps n

end Runs

/-- Free variables with corresponding names, spelled alike, make for the same fault. -/
theorem Runner.unboundFault_eq {names₁ names₂ : NameTable}
    (hspelled : SpelledAlike ρ.name names₁ names₂) {o p : FreeVariable}
    (hop : o.Akin ρ.name p) {os ps : List FreeVariable}
    (h : List.Forall₂ (FreeVariable.Akin ρ.name) os ps) :
    unboundFault names₁ o os = unboundFault names₂ p ps := by
  have hfirst : (Fault.ofCause (.unboundVariable (names₁.resolve o.name))).withSite
      (.ofTerm (.var o.span o.name)) =
        (Fault.ofCause (.unboundVariable (names₂.resolve p.name))).withSite
          (.ofTerm (.var p.span p.name)) := by
    rw [hspelled _ _ hop.name, hop.span]
    rfl
  simp only [unboundFault, hfirst]
  generalize (Fault.ofCause _).withSite _ = f
  induction h generalizing f with
  | nil => rfl
  | cons head rest ih =>
    rw [List.foldl_cons, List.foldl_cons, hspelled _ _ head.name, head.span]
    exact ih _

end CapLang
