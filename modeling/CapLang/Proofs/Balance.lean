import CapLang.Proofs.Passages

/-!
# Balance, levels and patience

Three facts about evaluation at large, the first an instance of `Passage` and the others of
`Congruence`:

* **balance** (`evalWith_balanced`): whatever comes of a term, the stack of calls is afterwards what
  it was before;
* **levels** (`evalWith_level`): the level of nesting, which chooses the thread, has no influence;
* **patience** (`evalWith_refines`): an evaluation that came to an end comes to the same end when
  calls may nest deeper.
-/
namespace CapLang

namespace Eval

variable {α β : Type}

/-! ## Balance -/

/-- The step leaves the stack of calls as it found it. -/
def Balanced (x : Eval α) : Prop := ∀ m, (x.after m).stack = m.stack

theorem Balanced.stack_of_ok {x : Eval α} (h : x.Balanced) {m m' : Machine} {a : α}
    (hx : x m = .ok a m') : m'.stack = m.stack := by
  rw [← h m, after_of_ok hx]

theorem Balanced.stack_of_error {x : Eval α} (h : x.Balanced) {m m' : Machine} {e : Stop}
    (hx : x m = .error e m') : m'.stack = m.stack := by
  rw [← h m, after_of_error hx]

end Eval

/-- A call is left exactly when it was entered. -/
theorem balanced_passage (cx : Context) : Passage cx fun m m' => m'.stack = m.stack where
  refl _ := rfl
  trans h₁ h₂ := h₂.trans h₁
  term _ := rfl
  case _ := rfl
  primitive _ := rfl
  stamp _ := rfl
  operate _ _ _ := rfl
  call c h := by rw [Machine.leave_stack, h, Machine.entered_stack, CallStack.pop_add]

/-- **Evaluation is balanced.** -/
theorem evalWith_balanced (cx : Context) (room level : Nat) (env : Env) (t : Term) :
    (t.evalWith cx (cx.callWithin room) level env).Balanced :=
  (balanced_passage cx).evalWith room level env t

theorem evalAll_balanced (cx : Context) (room level : Nat) (env : Env) (ts : List Term) :
    (Term.evalAll cx (cx.callWithin room) level env ts).Balanced :=
  (balanced_passage cx).evalAll room level env ts

/-! ## Levels -/

theorem eq_congruence (cx : Context) : Congruence cx fun _ x y => x = y where
  pure _ := rfl
  bind hx hf := by rw [hx, funext hf]
  fault _ _ _ := rfl
  term := rfl
  case := rfl
  primitive := rfl
  stamp := rfl
  operate _ _ _ := rfl

theorem Context.callWithin_level (cx : Context) (room l₁ l₂ : Nat) :
    cx.callWithin room l₁ = cx.callWithin room l₂ := by
  induction room generalizing l₁ l₂ with
  | zero => rfl
  | succ room ih =>
    have hrun : (fun (env : Env) (t : Term) => t.evalWith cx (cx.callWithin room) (l₁ + 1) env) =
        fun env t => t.evalWith cx (cx.callWithin room) (l₂ + 1) env := by
      funext env t
      exact (eq_congruence cx).evalWith (fun l k _ _ _ _ => by rw [ih l k]) _ _ env t
    funext code env args site
    simp only [callWithin, hrun]

/-- **The level has no influence.** -/
theorem evalWith_level (cx : Context) (room l₁ l₂ : Nat) (env : Env) (t : Term) :
    t.evalWith cx (cx.callWithin room) l₁ env = t.evalWith cx (cx.callWithin room) l₂ env :=
  (eq_congruence cx).evalWith (fun l k _ _ _ _ => by rw [cx.callWithin_level room l k]) _ _ env t

theorem evalAll_level (cx : Context) (room l₁ l₂ : Nat) (env : Env) (ts : List Term) :
    Term.evalAll cx (cx.callWithin room) l₁ env ts =
      Term.evalAll cx (cx.callWithin room) l₂ env ts :=
  (eq_congruence cx).evalAll (fun l k _ _ _ _ => by rw [cx.callWithin_level room l k]) _ _ env ts

/-! ## Patience -/

namespace Eval

variable {α β : Type}

/-- The second step comes to what the first one comes to, unless that is exhausted. -/
def Refines (x y : Eval α) : Prop := ∀ m, (∀ m', x m ≠ .error .exhausted m') → y m = x m

theorem Refines.bind {x y : Eval α} {f g : α → Eval β} (hx : Refines x y)
    (hf : ∀ a, Refines (f a) (g a)) : Refines (x >>= f) (y >>= g) := by
  intro m hm
  have hy : y m = x m := by
    refine hx m fun m' h => hm m' ?_
    rw [bind_of_error h]
  cases h : x m with
  | ok a m₁ =>
    rw [h] at hy
    rw [bind_of_ok h] at hm ⊢
    rw [bind_of_ok hy, hf a m₁ hm]
  | error e m₁ =>
    rw [h] at hy
    rw [bind_of_error h, bind_of_error hy]

theorem Refines.of_ok {x y : Eval α} (h : Refines x y) {m m' : Machine} {a : α}
    (hx : x m = .ok a m') : y m = .ok a m' := by
  rw [h m (fun _ he => by rw [hx] at he; cases he), hx]

theorem Refines.leaving {x y : Eval α} (h : Refines x y) (names : NameTable) :
    Refines (Eval.leaving names x) (Eval.leaving names y) := by
  intro m hm
  have hy : y m = x m := h m fun m' hx => hm m'.leave (leaving_of_exhausted hx)
  simp only [Eval.leaving, hy]

end Eval

theorem refines_congruence (cx : Context) : Congruence cx fun _ => Eval.Refines where
  pure _ _ _ := rfl
  bind := Eval.Refines.bind
  fault _ _ _ _ _ := rfl
  term _ _ := rfl
  case _ _ := rfl
  primitive _ _ := rfl
  stamp _ _ := rfl
  operate _ _ _ _ _ := rfl

theorem Context.callWith_refines (cx : Context) {run₁ run₂ : Env → Term → Eval Value}
    (hrun : ∀ env t, Eval.Refines (run₁ env t) (run₂ env t)) (code : Code) (env : Env)
    (args : List Value) (site : Site) :
    Eval.Refines (cx.callWith run₁ code env args site) (cx.callWith run₂ code env args site) := by
  intro m hm
  by_cases h : code.arity = args.length
  · rcases m.admits_or_full with ha | ⟨limit, hl, hfull⟩
    · rw [cx.callWith_entered run₁ env site h ha] at hm ⊢
      rw [cx.callWith_entered run₂ env site h ha]
      refine Eval.Refines.leaving ?_ cx.names _ hm
      exact ((refines_congruence cx).bodyEnv code env args).bind fun inner => hrun inner _
    · rw [cx.callWith_full run₁ env site h hl hfull, cx.callWith_full run₂ env site h hl hfull]
  · rw [cx.callWith_wrongCount run₁ env site h, cx.callWith_wrongCount run₂ env site h]

theorem Context.callWithin_refines (cx : Context) {room₁ room₂ : Nat} (hroom : room₁ ≤ room₂)
    (l₁ l₂ : Nat) (code : Code) (env : Env) (args : List Value) (site : Site) :
    Eval.Refines (cx.callWithin room₁ l₁ code env args site)
      (cx.callWithin room₂ l₂ code env args site) := by
  induction room₁ generalizing room₂ l₁ l₂ code env args site with
  | zero =>
    -- Without room the body is never followed, so any other body refines it.
    cases room₂ with
    | zero => exact fun m hm => rfl
    | succ room₂ =>
      exact cx.callWith_refines (fun _ _ m hm => absurd rfl (hm m)) code env args site
  | succ room₁ ih =>
    obtain ⟨k, rfl⟩ : ∃ k, room₂ = k + 1 := ⟨room₂ - 1, by omega⟩
    refine cx.callWith_refines (fun env t => ?_) code env args site
    exact (refines_congruence cx).evalWith (ih (by omega)) _ _ env t

/-- **More patience changes no end.** -/
theorem evalWith_refines (cx : Context) {room₁ room₂ : Nat} (hroom : room₁ ≤ room₂)
    (l₁ l₂ : Nat) (env : Env) (t : Term) :
    Eval.Refines (t.evalWith cx (cx.callWithin room₁) l₁ env)
      (t.evalWith cx (cx.callWithin room₂) l₂ env) :=
  (refines_congruence cx).evalWith (cx.callWithin_refines hroom) l₁ l₂ env t

end CapLang
