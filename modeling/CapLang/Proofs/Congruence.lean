import CapLang.Proofs.Steps

/-!
# Relations between steps that evaluation keeps

Many facts about evaluation do not depend on which value a term has: that the stack is as it was,
that more patience changes nothing, that a higher limit changes nothing but the depth faults.  Such
a fact is a relation between two steps (often a step and itself) that holds of the single steps and
is kept by `>>=`.  `Congruence` lists these demands, and `Congruence.evalWith` says once, by
recursion over terms, that the relation then holds between the evaluations of any term, provided
that it holds between the two ways of making a call.
-/
namespace CapLang

/-- **A relation between steps that evaluation keeps.** -/
structure Congruence (cx : Context) (R : (α : Type) → Eval α → Eval α → Prop) : Prop where
  pure : ∀ {α : Type} (a : α), R α (Pure.pure a) (Pure.pure a)
  bind : ∀ {α β : Type} {x y : Eval α} {f g : α → Eval β},
    R α x y → (∀ a, R β (f a) (g a)) → R β (x >>= f) (y >>= g)
  /-- Faults that a term or a call raises by itself: about anything but depth, and without a
  backtrace. -/
  fault : ∀ {α : Type} (f : Fault), f.backtrace = none → f.cause.faultClass ≠ .stackOverflow →
    R α (throw (.fault f)) (throw (.fault f))
  term : R Unit (Eval.count .term) (Eval.count .term)
  case : R Unit (Eval.count .case) (Eval.count .case)
  primitive : R Unit (Eval.count .primitive) (Eval.count .primitive)
  stamp : R Stamp Eval.stamp Eval.stamp
  operate : ∀ op args site, R Value (Eval.operate cx op args site) (Eval.operate cx op args site)

/-- The relation holds between two ways of making a call. -/
def RelatedCalls (R : (α : Type) → Eval α → Eval α → Prop) (call₁ call₂ : CallRule) : Prop :=
  ∀ l₁ l₂ code env args site, R Value (call₁ l₁ code env args site) (call₂ l₂ code env args site)

namespace Congruence

variable {cx : Context} {R : (α : Type) → Eval α → Eval α → Prop} (h : Congruence cx R)
include h

theorem raise {α : Type} (site : Site) (cause : Cause) (hc : cause.faultClass ≠ .stackOverflow) :
    R α (Eval.raise site cause) (Eval.raise site cause) :=
  h.fault _ rfl hc

theorem bindNames (env : Env) (bindings : List (Name × Value)) :
    R Env (Eval.bind env bindings) (Eval.bind env bindings) :=
  h.bind h.stamp fun _ => h.pure _

theorem bodyEnv (code : Code) (env : Env) (args : List Value) :
    R Env (Eval.bodyEnv code env args) (Eval.bodyEnv code env args) := by
  refine h.bind ?_ fun outer => h.bindNames _ _
  cases code with
  | lambda id header body => exact h.pure _
  | member id functions i => exact h.bind h.stamp fun _ => h.pure _

variable {call₁ call₂ : CallRule}

mutual

/-- **Evaluation keeps the relation.**  The two levels, which only say on which thread the work is
done, need not agree. -/
theorem evalWith (hcall : RelatedCalls R call₁ call₂) (l₁ l₂ : Nat) (env : Env) : ∀ t : Term,
    R Value (t.evalWith cx call₁ l₁ env) (t.evalWith cx call₂ l₂ env)
  | .literal .. => by
    simp only [Term.evalWith]
    exact h.bind h.term fun _ => h.pure _
  | .var span x => by
    simp only [Term.evalWith]
    refine h.bind h.term fun _ => ?_
    cases env.lookup x with
    | some v => exact h.pure v
    | none => exact h.raise _ _ nofun
  | .lambda .. => by
    simp only [Term.evalWith]
    exact h.bind h.term fun _ => h.pure _
  | .app span func args => by
    simp only [Term.evalWith, Eval.nested_eq]
    refine h.bind h.term fun _ => h.bind (evalWith hcall _ _ env func) fun v => ?_
    cases v with
    | closure code closed =>
      exact h.bind (evalAll hcall _ _ env args) fun values => hcall _ _ code closed values _
    | _ => exact h.raise _ _ nofun
  | .letIn _ x value body => by
    simp only [Term.evalWith, Eval.nested_eq]
    exact h.bind h.term fun _ => h.bind (evalWith hcall _ _ env value) fun v =>
      h.bind (h.bindNames _ _) fun inner => evalWith hcall _ _ inner body
  | .letRec _ id functions body => by
    simp only [Term.evalWith, Eval.nested_eq]
    exact h.bind h.term fun _ => h.bind h.stamp fun s => evalWith hcall _ _ _ body
  | .ifThenElse span cond thenBranch elseBranch => by
    simp only [Term.evalWith, Eval.nested_eq]
    refine h.bind h.term fun _ => h.bind (evalWith hcall _ _ env cond) fun v => ?_
    cases v with
    | bool b =>
      cases b with
      | true => exact evalWith hcall _ _ env thenBranch
      | false => exact evalWith hcall _ _ env elseBranch
    | _ => exact h.raise _ _ nofun
  | .caseOf span scrutinee alternatives => by
    simp only [Term.evalWith, Eval.nested_eq]
    exact h.bind h.term fun _ => h.bind (evalWith hcall _ _ env scrutinee) fun v =>
      h.bind h.case fun _ => evalFirst hcall _ _ env _ v alternatives
  | .record _ fields => by
    simp only [Term.evalWith, Eval.nested_eq]
    exact h.bind h.term fun _ => h.bind (evalFields hcall _ _ env fields) fun values =>
      h.bind h.stamp fun s => h.pure _
  | .field span base x => by
    simp only [Term.evalWith, Eval.nested_eq]
    refine h.bind h.term fun _ => h.bind (evalWith hcall _ _ env base) fun v => ?_
    cases v with
    | record s fields =>
      show R Value (match Value.field? x fields with | some v => _ | none => _)
        (match Value.field? x fields with | some v => _ | none => _)
      cases Value.field? x fields with
      | some v => exact h.pure v
      | none => exact h.raise _ _ nofun
    | _ => exact h.raise _ _ nofun
  | .variant _ tag payload => by
    simp only [Term.evalWith, Eval.nested_eq]
    exact h.bind h.term fun _ => h.bind (evalWith hcall _ _ env payload) fun v => h.pure _
  | .prim span op args => by
    simp only [Term.evalWith, Eval.nested_eq]
    exact h.bind h.term fun _ => h.bind (evalAll hcall _ _ env args) fun values =>
      h.bind h.primitive fun _ => h.operate op values _

theorem evalAll (hcall : RelatedCalls R call₁ call₂) (l₁ l₂ : Nat) (env : Env) :
    ∀ ts : List Term,
      R (List Value) (Term.evalAll cx call₁ l₁ env ts) (Term.evalAll cx call₂ l₂ env ts)
  | [] => by
    simp only [Term.evalAll]
    exact h.pure []
  | t :: ts => by
    simp only [Term.evalAll]
    exact h.bind (evalWith hcall l₁ l₂ env t) fun v =>
      h.bind (evalAll hcall l₁ l₂ env ts) fun vs => h.pure _

theorem evalFields (hcall : RelatedCalls R call₁ call₂) (l₁ l₂ : Nat) (env : Env) :
    ∀ fields : List (Name × Term),
      R (List (Name × Value)) (Term.evalFields cx call₁ l₁ env fields)
        (Term.evalFields cx call₂ l₂ env fields)
  | [] => by
    simp only [Term.evalFields]
    exact h.pure []
  | (x, t) :: rest => by
    simp only [Term.evalFields]
    exact h.bind (evalWith hcall l₁ l₂ env t) fun v =>
      h.bind (evalFields hcall l₁ l₂ env rest) fun vs => h.pure _

theorem evalFirst (hcall : RelatedCalls R call₁ call₂) (l₁ l₂ : Nat) (env : Env) (site : Site)
    (v : Value) : ∀ alternatives : List (Pattern × Term),
      R Value (Term.evalFirst cx call₁ l₁ env site v alternatives)
        (Term.evalFirst cx call₂ l₂ env site v alternatives)
  | [] => by
    simp only [Term.evalFirst]
    exact h.fault _ rfl nofun
  | (p, body) :: rest => by
    simp only [Term.evalFirst]
    cases p.match? v with
    | some bindings =>
      exact h.bind (h.bindNames _ _) fun inner => evalWith hcall l₁ l₂ inner body
    | none => exact evalFirst hcall l₁ l₂ env site v rest

end

end Congruence

/-! ## Facts about one evaluation

A property of a single step is a relation that ignores its second step. -/

namespace Congruence

variable {cx : Context} {P : (α : Type) → Eval α → Prop} (h : Congruence cx fun α x _ => P α x)
  {call : CallRule} (hcall : ∀ l code env args site, P Value (call l code env args site))
include h hcall

theorem evalWith_of_calls (l : Nat) (env : Env) (t : Term) :
    P Value (t.evalWith cx call l env) :=
  @Congruence.evalWith cx _ h call call (fun l _ => hcall l) l l env t

theorem evalAll_of_calls (l : Nat) (env : Env) (ts : List Term) :
    P (List Value) (Term.evalAll cx call l env ts) :=
  @Congruence.evalAll cx _ h call call (fun l _ => hcall l) l l env ts

end Congruence
end CapLang
