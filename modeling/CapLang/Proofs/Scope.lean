import CapLang.Proofs.FreeOccurrences
import CapLang.Proofs.Invariants
import CapLang.Proofs.Provenance
import CapLang.Proofs.Worlds

/-!
# Scope

A program runs into an unbound variable only at one of its own free occurrences.  The invariant is
that of every term that is evaluated, and of every function wherever it is kept, each free
occurrence has a binding in the environment or is free in the whole program (`Env.Covers`).  An
environment is extended with just the names that the binders of the term take away
(`Covers.extendMany`, `Covers.bindGroup`), and a function keeps the environment in which it was
made, so that nothing changes when it is called after its binder is left.
-/
namespace CapLang

open FreeVariable

/-- Each of the occurrences has a binding in the environment or is among those in `free`. -/
def Env.Covers (env : Env) (free occurrences : List FreeVariable) : Prop :=
  ∀ o ∈ occurrences, env.contains o.name ∨ o ∈ free

namespace Env.Covers

variable {env : Env} {free occurrences others : List FreeVariable}

theorem subset (h : env.Covers free occurrences) (hsub : ∀ o ∈ others, o ∈ occurrences) :
    env.Covers free others := fun o ho => h o (hsub o ho)

theorem append : env.Covers free (occurrences ++ others) ↔
    env.Covers free occurrences ∧ env.Covers free others :=
  List.forall_mem_append

/-- Binding the names that a binder takes away covers what is in its scope. -/
theorem extendMany {bound : List Name} (h : env.Covers free (outside bound occurrences))
    (stamp : Stamp) {bindings : List (Name × Value)} (hnames : bindings.map (·.1) = bound) :
    (env.extendMany stamp bindings).Covers free occurrences := by
  intro o ho
  rw [contains_extendMany, hnames]
  by_cases hbound : o.name ∈ bound
  · exact .inl (.inl hbound)
  · have houter := h o (mem_outside.mpr ⟨ho, hbound⟩)
    exact houter.imp .inr fun hfree => hfree

theorem bindGroup {functions : List (GroupHeader × Term)}
    (h : env.Covers free (outside (functions.map (·.1.binder)) occurrences)) (stamp : Stamp)
    (id : CodeId) : (env.bindGroup stamp id functions).Covers free occurrences := by
  intro o ho
  rw [contains_bindGroup]
  by_cases hbound : o.name ∈ functions.map (·.1.binder)
  · exact .inl (.inl hbound)
  · have houter := h o (mem_outside.mpr ⟨ho, hbound⟩)
    exact houter.imp .inr fun hfree => hfree

end Env.Covers

/-- What a function refers to from outside, its environment binds, or it is free in the program. -/
def Code.Scoped (free : List FreeVariable) (code : Code) (env : Env) : Prop :=
  env.Covers free code.freeOccurrences

/-- What is free in the term, the environment binds, or it is free in the program. -/
def Term.Scoped (free : List FreeVariable) (env : Env) (t : Term) : Prop :=
  env.Covers free t.freeOccurrences

section Scoped

variable {free : List FreeVariable} {env : Env}

/-- All functions of a group refer to the same names from outside. -/
theorem Code.Scoped.member {id : CodeId} {functions : List (GroupHeader × Term)} {i : Nat}
    (h : (Code.member id functions i).Scoped free env) (k : Nat) :
    (Code.member id functions k).Scoped free env := h

/-- A function that is called finds its names in the environment that it kept. -/
theorem Code.Scoped.body {code : Code} {args : List Value} (h : code.Scoped free env)
    (hcount : code.arity = args.length) (stamp stamp' : Stamp) :
    code.body.Scoped free ((env.ofCode stamp code).extendMany stamp' (code.params.zip args)) := by
  have hnames : (code.params.zip args).map (·.1) = code.params :=
    List.map_fst_zip (Nat.le_of_eq hcount)
  refine Env.Covers.extendMany ?_ stamp' hnames
  -- The group of a member is bound anew, outside the parameters.
  cases code with
  | lambda id header body => exact h
  | member id functions i =>
    have hgroup := Env.Covers.bindGroup h stamp id
    exact hgroup.subset fun o ho => Code.mem_occurrencesOfGroup ho

end Scoped

/-- **Scoping is an invariant of evaluation.** -/
theorem scoped_invariant {cx : Context} (hi : cx.invoke = World.invoke) {start : World}
    (hstart : start.ReturnsParts) (free : List FreeVariable) :
    Invariant cx (Value.Functions (Code.Scoped free)) (Term.Scoped free)
      (start.Follows (Code.Scoped free)) where
  literal l := by cases l <;> trivial
  lambda h := h
  app h := by
    obtain ⟨hfunc, hargs⟩ := Env.Covers.append.mp h
    exact ⟨hfunc, fun a ha => hargs.subset fun o ho => Term.mem_occurrencesOfAll.mpr ⟨a, ha, ho⟩⟩
  letIn h := by
    obtain ⟨hvalue, hbody⟩ := Env.Covers.append.mp h
    exact ⟨hvalue, fun stamp v => hbody.extendMany stamp rfl⟩
  letRec {env span id functions body} h := by
    rw [Term.Scoped, Term.freeOccurrences, outside_append] at h
    obtain ⟨hgroup, hbody⟩ := Env.Covers.append.mp h
    exact ⟨fun i _ => hgroup, fun stamp => hbody.bindGroup stamp id⟩
  ifThenElse h := by
    obtain ⟨hcond, hbranches⟩ := Env.Covers.append.mp h
    exact ⟨hcond, Env.Covers.append.mp hbranches⟩
  caseOf h := by
    obtain ⟨hscrutinee, hbodies⟩ := Env.Covers.append.mp h
    refine ⟨hscrutinee, fun p body hmem stamp bindings hnames => ?_⟩
    refine Env.Covers.extendMany (hbodies.subset fun o ho => ?_) stamp hnames
    exact Term.mem_occurrencesOfAlternatives.mpr ⟨(p, body), hmem, mem_outside.mp ho⟩
  record h := by
    refine ⟨fun u hu => h.subset fun o ho => Term.mem_occurrencesOfFields.mpr ⟨u, hu, ho⟩, ?_⟩
    exact fun stamp values _ => Value.functions_ofFields
  field h := h
  variant h := ⟨h, fun _ => trivial⟩
  prim h a ha := h.subset fun o ho => Term.mem_occurrencesOfAll.mpr ⟨a, ha, ho⟩
  body h hcount stamp stamp' := h.body hcount stamp stamp'
  members h k _ := h.member k
  stamp _ hw := hw.stamp
  operator _ hvalues hw happly := Operator.apply_follows hi hw hstart hvalues happly

namespace Context

variable {cx : Context} {env : Env} {t : Term} {m : Machine} {raw : Fault}

/-- **Only a variable without a binding** is detected with this class of fault, unless a host object
raises it. -/
theorem Detects.unbound_of_class (hi : cx.invoke = World.invoke)
    (hw : m.world.NeverRaises .unboundVariable) (h : cx.Detects env t m raw)
    (hclass : raw.cause.faultClass = .unboundVariable) :
    ∃ span x, t = .var span x ∧ env.lookup x = none ∧
      raw = .ofCause (.unboundVariable (cx.names.resolve x)) := by
  cases h with
  | unbound free => exact ⟨_, _, rfl, free, rfl⟩
  | refused callee arguments refuses => cases refuses <;> cases hclass
  | operator operands fails plain => exact absurd hclass (FaultClass.ne_of_ofPrimitive plain rfl)
  | @host span method args m handle rest m₁ raw w operands raises =>
    have hw₁ : m₁.world.NeverRaises .unboundVariable :=
      operands.keeps (neverRaises_kept hi .unboundVariable) hw
    rw [hi] at raises
    have hother := hw₁.invoke_fault _ handle _ rest rfl (congrArg Prod.fst raises)
    exact absurd hclass hother
  | _ => cases hclass

/-- An unbound variable in the evaluation of a term that its environment covers is free in the
program. -/
theorem eval_unbound (hi : cx.invoke = World.invoke) {free : List FreeVariable} {p : Nat}
    {m' : Machine} {f : Fault} (hreturns : m.world.ReturnsParts)
    (hraises : m.world.NeverRaises .unboundVariable)
    (hg : env.All (Value.Functions (Code.Scoped free))) (ht : t.Scoped free env)
    (h : cx.eval p env t m = .error (.fault f) m')
    (hclass : f.cause.faultClass = .unboundVariable) :
    ∃ o ∈ free, f.cause = .unboundVariable (cx.names.resolve o.name) ∧
      f.site = some ⟨o.span, "VariableReference"⟩ := by
  obtain ⟨active, inner, u, m₁, raw, hwithin, hdetects, rfl⟩ := eval_fault_origin p env t m h
  have hsuited : (Job.eval env t m).Suited (Value.Functions (Code.Scoped free))
      (Term.Scoped free) (m.world.Follows (Code.Scoped free)) := ⟨hg, ht, .refl _⟩
  obtain ⟨-, hscoped, -⟩ := (scoped_invariant hi hreturns free).within hwithin hsuited
  have hraises₁ : m₁.world.NeverRaises .unboundVariable :=
    hwithin.keeps (neverRaises_kept hi .unboundVariable) hraises
  obtain ⟨span, x, rfl, hlookup, rfl⟩ := hdetects.unbound_of_class hi hraises₁ hclass
  refine ⟨⟨x, span⟩, ?_, rfl, rfl⟩
  -- A name in scope would have been found, so the occurrence is free in the program.
  rcases hscoped ⟨x, span⟩ List.mem_cons_self with hbound | hfree
  · exact absurd hbound (Env.not_contains_of_lookup hlookup)
  · exact hfree

end Context

namespace Runner

variable {r : Runner} {p : Nat} {t : Term} {w : World} {f : Fault}

theorem run_unbound (hi : r.context.invoke = World.invoke) (hreturns : w.ReturnsParts)
    (hraises : w.NeverRaises .unboundVariable) (h : (r.run p t w).1 = .error (.fault f))
    (hclass : f.cause.faultClass = .unboundVariable) :
    ∃ o ∈ t.freeOccurrences, f.cause = .unboundVariable (r.context.names.resolve o.name) ∧
      f.site = some ⟨o.span, "VariableReference"⟩ := by
  obtain ⟨m', heval⟩ := start_fault h
  have hempty : Env.empty.All (Value.Functions (Code.Scoped t.freeOccurrences)) := nofun
  have hcovers : t.Scoped t.freeOccurrences .empty := fun o ho => .inr ho
  exact Context.eval_unbound hi hreturns hraises hempty hcovers heval hclass

theorem checkAndRun_of_closed (ht : t.freeVariables = []) : r.checkAndRun p t w = r.run p t w := by
  rw [checkAndRun, ht]

end Runner

/-- **Scope soundness.**  Whatever functions are called when and where, a run that ends with an
unbound variable names a free variable of the program, and its site is a free occurrence of it.  A
program without free variables never ends so. -/
theorem scope_sound (names : NameTable) (registry : Registry) (mode : Mode) (p : Nat) (t : Term)
    (w : World) (hraises : w.NeverRaises .unboundVariable) (hreturns : w.ReturnsParts) :
    let r : Runner := ⟨⟨names, registry, World.invoke⟩, mode⟩
    (∀ f, (r.run p t w).1 = .error (.fault f) → f.cause.faultClass = .unboundVariable →
      ∃ y ∈ t.freeVariables, ∃ o ∈ t.freeOccurrences, o.name = y.name ∧
        f.cause = .unboundVariable (names.resolve y.name) ∧
        f.site = some ⟨o.span, "VariableReference"⟩) ∧
    (t.freeVariables = [] → ∀ f,
      (r.run p t w).1 = .error (.fault f) ∨ (r.checkAndRun p t w).1 = .error (.fault f) →
        f.cause.faultClass ≠ .unboundVariable) := by
  intro r
  refine ⟨fun f h hclass => ?_, fun hclosed f h hclass => ?_⟩
  · obtain ⟨o, ho, hcause, hsite⟩ := Runner.run_unbound rfl hreturns hraises h hclass
    obtain ⟨y, hy, hname⟩ := Term.exists_mem_freeVariables.mpr ⟨o, ho, rfl⟩
    exact ⟨y, hy, o, ho, hname.symm, by rw [hcause, hname], hsite⟩
  · rw [Runner.checkAndRun_of_closed hclosed, or_self] at h
    obtain ⟨o, ho, -⟩ := Runner.run_unbound rfl hreturns hraises h hclass
    rw [Term.freeOccurrences_of_closed hclosed] at ho
    cases ho

/-- A function with a free variable, called after it went through a host object. -/
theorem echoed_function_unbound :
    let names : NameTable := ⟨#["", "echo", "give", "x", "y"]⟩
    let registry : Registry := Registry.empty.register ⟨⟨1⟩, ⟨0⟩, "Echo"⟩
    let r : Runner := ⟨⟨names, registry, World.invoke⟩, .interpret⟩
    let t : Term := .app none
      (.prim none (.invoke ⟨2⟩)
        [.prim none (.capability ⟨1⟩) [],
          .lambda none ⟨0⟩ ⟨none, [⟨3⟩]⟩ (.var (some ⟨9, 10⟩) ⟨4⟩)])
      [.literal none (.int 1)]
    Echo.world.NeverRaises .unboundVariable ∧ Echo.world.ReturnsParts ∧
      ∃ f, (r.run 0 t Echo.world).1 = .error (.fault f) ∧
        f.cause.faultClass = .unboundVariable ∧
        ∃ y ∈ t.freeVariables, ∃ o ∈ t.freeOccurrences, o.name = y.name ∧
          f.cause = .unboundVariable (names.resolve y.name) ∧
          f.site = some ⟨o.span, "VariableReference"⟩ := by
  intro names registry r t
  have hsound := scope_sound names registry .interpret 0 t Echo.world Echo.neverRaises
    Echo.returnsParts
  refine ⟨Echo.neverRaises, Echo.returnsParts, _, rfl, rfl, ?_⟩
  exact hsound.1 _ rfl rfl

end CapLang
