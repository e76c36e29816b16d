import CapLang.Proofs.Balance

/-!
# Evaluation by its own equations

`Context.eval` hands out the room for nested calls once, at the start.  Because evaluation is
balanced, the room is the same again whenever a part of a term has been evaluated, so `eval` and
`apply` satisfy the equations by which one would have defined them: one for each form of term
(`eval_letIn`, …), with `eval` for the parts and `apply` for calls.  Calls lead back to `eval` with
less room (`apply_entered`), and `eval_induction` is the induction that this allows.
-/
namespace CapLang

/-- The alternative that a value selects: the bindings of its pattern, and its body. -/
def Term.choose (v : Value) : List (Pattern × Term) → Option (List (Name × Value) × Term)
  | [] => none
  | (p, body) :: rest =>
    match p.match? v with
    | some bindings => some (bindings, body)
    | none => Term.choose v rest

/-- The alternative that is selected is the first that fits. -/
theorem Term.choose_eq_some {v : Value} {alternatives : List (Pattern × Term)}
    {bindings : List (Name × Value)} {body : Term} :
    Term.choose v alternatives = some (bindings, body) ↔
      ∃ i p, alternatives[i]? = some (p, body) ∧ p.match? v = some bindings ∧
        ∀ a ∈ alternatives.take i, a.1.match? v = none := by
  induction alternatives with
  | nil => simp [Term.choose]
  | cons alternative rest ih =>
    obtain ⟨p, body'⟩ := alternative
    cases hm : p.match? v with
    | some bindings' =>
      simp only [Term.choose, hm, Option.some.injEq, Prod.mk.injEq]
      constructor
      · rintro ⟨rfl, rfl⟩
        exact ⟨0, p, rfl, hm, nofun⟩
      · rintro ⟨i, q, hi, hq, hnone⟩
        cases i with
        | zero =>
          cases hi
          rw [hm] at hq
          exact ⟨Option.some.inj hq, rfl⟩
        | succ i =>
          have hfirst := hnone (p, body') List.mem_cons_self
          rw [hm] at hfirst
          cases hfirst
    | none =>
      simp only [Term.choose, hm, ih]
      constructor
      · rintro ⟨i, q, hi, hq, hnone⟩
        exact ⟨i + 1, q, hi, hq, List.forall_mem_cons.mpr ⟨hm, hnone⟩⟩
      · rintro ⟨i, q, hi, hq, hnone⟩
        cases i with
        | zero =>
          cases hi
          rw [hm] at hq
          cases hq
        | succ i => exact ⟨i, q, hi, hq, (List.forall_mem_cons.mp hnone).2⟩

theorem Term.choose_mem {v : Value} {alternatives : List (Pattern × Term)}
    {bindings : List (Name × Value)} {body : Term}
    (h : Term.choose v alternatives = some (bindings, body)) :
    ∃ p, (p, body) ∈ alternatives ∧ p.match? v = some bindings := by
  obtain ⟨i, p, hi, hp, -⟩ := Term.choose_eq_some.mp h
  exact ⟨p, List.mem_of_getElem? hi, hp⟩

/-- The fault of a value that no alternative fits, before it has a site. -/
def Fault.noMatch (names : NameTable) (v : Value) : Fault :=
  (Fault.ofCause .nonExhaustiveMatch).withNote ⟨"scrutinee was " ++ v.text names, none⟩

theorem Term.evalFirst_eq (cx : Context) (call : CallRule) (level : Nat) (env : Env) (site : Site)
    (v : Value) (alternatives : List (Pattern × Term)) :
    Term.evalFirst cx call level env site v alternatives =
      match Term.choose v alternatives with
      | some (bindings, body) => do
        let inner ← Eval.bind env bindings
        body.evalWith cx call level inner
      | none => throw (.fault ((Fault.noMatch cx.names v).withSite site)) := by
  induction alternatives with
  | nil => simp only [Term.evalFirst, Term.choose]; rfl
  | cons alternative rest ih =>
    obtain ⟨p, body⟩ := alternative
    simp only [Term.evalFirst, Term.choose]
    cases p.match? v with
    | some bindings => rfl
    | none => exact ih

/-- Fields are evaluated as their terms are, and then named. -/
theorem Term.evalFields_eq (cx : Context) (call : CallRule) (level : Nat) (env : Env)
    (fields : List (Name × Term)) :
    Term.evalFields cx call level env fields = (do
      let values ← Term.evalAll cx call level env (fields.map (·.2))
      pure ((fields.map (·.1)).zip values)) := by
  induction fields with
  | nil => simp [Term.evalFields, Term.evalAll]
  | cons field rest ih =>
    obtain ⟨x, t⟩ := field
    simp [Term.evalFields, Term.evalAll, ih]

namespace CallStack

/-- A call that is admitted takes up one place of the room. -/
theorem room_add (s : CallStack) (c : Call) {patience room : Nat}
    (h : s.room patience = room + 1) : (s.add c).room (patience - 1) = room := by
  have hadd : (s.add c).limit? = s.limit? := rfl
  have hdepth : (s.add c).depth = s.depth + 1 := rfl
  unfold CallStack.room at h ⊢
  rw [hadd, hdepth]
  cases hl : s.limit? with
  | none =>
    rw [hl] at h
    exact Nat.sub_eq_of_eq_add h
  | some limit =>
    rw [hl] at h
    show limit - (s.depth + 1) = room
    change limit - s.depth = room + 1 at h
    omega

end CallStack

namespace Context

variable (cx : Context) (p : Nat) {α β : Type}

/-- The values of terms, from left to right. -/
def evalAll (patience : Nat) (env : Env) (ts : List Term) : Eval (List Value) := fun m =>
  Term.evalAll cx (cx.callWithin (m.stack.room patience)) 0 env ts m

/-- A step that makes its calls with the room that the machine leaves. -/
def inRoom (patience : Nat) (F : CallRule → Eval α) : Eval α := fun m =>
  F (cx.callWithin (m.stack.room patience)) m

/-- After a balanced step the room is what it was. -/
theorem inRoom_bind {F : CallRule → Eval α} {G : CallRule → α → Eval β} {x : Eval α}
    {g : α → Eval β} (hb : ∀ room, (F (cx.callWithin room)).Balanced) (hF : cx.inRoom p F = x)
    (hG : ∀ a, cx.inRoom p (fun call => G call a) = g a) :
    cx.inRoom p (fun call => F call >>= G call) = x >>= g := by
  subst hF
  funext m
  show (F (cx.callWithin (m.stack.room p)) >>= G _) m = _
  cases h : F (cx.callWithin (m.stack.room p)) m with
  | ok a m₁ =>
    have hx : cx.inRoom p F m = .ok a m₁ := h
    rw [Eval.bind_of_ok h, Eval.bind_of_ok hx, ← hG a]
    -- The second step finds the stack that the first one found.
    show _ = G (cx.callWithin (m₁.stack.room p)) a m₁
    rw [(hb _).stack_of_ok h]
  | error e m₁ =>
    have hx : cx.inRoom p F m = .error e m₁ := h
    rw [Eval.bind_of_error h, Eval.bind_of_error hx]

theorem inRoom_eval (level : Nat) (env : Env) (t : Term) :
    cx.inRoom p (fun call => t.evalWith cx call level env) = cx.eval p env t := by
  funext m
  exact congrFun (evalWith_level cx _ level 0 env t) m

theorem inRoom_evalAll (level : Nat) (env : Env) (ts : List Term) :
    cx.inRoom p (fun call => Term.evalAll cx call level env ts) = cx.evalAll p env ts := by
  funext m
  exact congrFun (evalAll_level cx _ level 0 env ts) m

theorem inRoom_apply (level : Nat) (code : Code) (env : Env) (args : List Value) (site : Site) :
    cx.inRoom p (fun call => call level code env args site) = cx.apply p code env args site := by
  funext m
  simp only [inRoom, apply, cx.callWithin_level _ level 0]

theorem eval_balanced (env : Env) (t : Term) : (cx.eval p env t).Balanced :=
  fun m => evalWith_balanced cx (m.stack.room p) 0 env t m

theorem evalAll_balanced (env : Env) (ts : List Term) : (cx.evalAll p env ts).Balanced :=
  fun m => CapLang.evalAll_balanced cx (m.stack.room p) 0 env ts m

theorem apply_balanced (code : Code) (env : Env) (args : List Value) (site : Site) :
    (cx.apply p code env args site).Balanced :=
  fun m => (balanced_passage cx).callWithin (m.stack.room p) 0 code env args site m

/-! ## One equation for each form of term -/

section Equations

variable (env : Env) (span : Option Span)

theorem eval_literal (l : Literal) : cx.eval p env (.literal span l) = (do
    Eval.count .term
    pure (.ofLiteral l)) := rfl

theorem eval_var (x : Name) : cx.eval p env (.var span x) = (do
    Eval.count .term
    match env.lookup x with
    | some v => pure v
    | none =>
      Eval.raise (.ofTerm (.var span x)) (.unboundVariable (cx.names.resolve x))) := rfl

theorem eval_lambda (id : CodeId) (header : Header) (body : Term) :
    cx.eval p env (.lambda span id header body) = (do
      Eval.count .term
      pure (.closure (.lambda id header body) env)) := rfl

theorem eval_app (func : Term) (args : List Term) : cx.eval p env (.app span func args) = (do
    Eval.count .term
    match ← cx.eval p env func with
    | .closure code closed =>
      let values ← cx.evalAll p env args
      cx.apply p code closed values (.ofTerm (.app span func args))
    | v => Eval.raise (.ofTerm (.app span func args)) (.notApplicable v.typeName)) := by
  show cx.inRoom p (fun call => Term.evalWith cx call 0 env (.app span func args)) = _
  simp only [Term.evalWith, Eval.nested_eq]
  refine cx.inRoom_bind p (fun _ _ => rfl) rfl fun _ =>
    cx.inRoom_bind p (fun room => evalWith_balanced cx room _ env func)
      (cx.inRoom_eval p _ env func) fun v => ?_
  cases v with
  | closure code closed =>
    exact cx.inRoom_bind p (fun room => CapLang.evalAll_balanced cx room _ env args)
      (cx.inRoom_evalAll p _ env args) fun values => cx.inRoom_apply p _ code closed values _
  | _ => rfl

theorem eval_letIn (x : Name) (value body : Term) :
    cx.eval p env (.letIn span x value body) = (do
      Eval.count .term
      let v ← cx.eval p env value
      let inner ← Eval.bind env [(x, v)]
      cx.eval p inner body) := by
  show cx.inRoom p (fun call => Term.evalWith cx call 0 env (.letIn span x value body)) = _
  simp only [Term.evalWith, Eval.nested_eq]
  exact cx.inRoom_bind p (fun _ _ => rfl) rfl fun _ =>
    cx.inRoom_bind p (fun room => evalWith_balanced cx room _ env value)
      (cx.inRoom_eval p _ env value) fun v =>
        cx.inRoom_bind p (fun _ _ => rfl) rfl fun inner => cx.inRoom_eval p _ inner body

theorem eval_letRec (id : CodeId) (functions : List (GroupHeader × Term)) (body : Term) :
    cx.eval p env (.letRec span id functions body) = (do
      Eval.count .term
      let stamp ← Eval.stamp
      cx.eval p (env.bindGroup stamp id functions) body) := by
  show cx.inRoom p (fun call => Term.evalWith cx call 0 env (.letRec span id functions body)) = _
  simp only [Term.evalWith, Eval.nested_eq]
  exact cx.inRoom_bind p (fun _ _ => rfl) rfl fun _ =>
    cx.inRoom_bind p (fun _ _ => rfl) rfl fun stamp => cx.inRoom_eval p _ _ body

theorem eval_ifThenElse (cond thenBranch elseBranch : Term) :
    cx.eval p env (.ifThenElse span cond thenBranch elseBranch) = (do
      Eval.count .term
      match ← cx.eval p env cond with
      | .bool b => cx.eval p env (if b then thenBranch else elseBranch)
      | v =>
        Eval.raise (.ofTerm (.ifThenElse span cond thenBranch elseBranch))
          (.typeMismatch "Boolean" v.typeName)) := by
  show cx.inRoom p
    (fun call => Term.evalWith cx call 0 env (.ifThenElse span cond thenBranch elseBranch)) = _
  simp only [Term.evalWith, Eval.nested_eq]
  refine cx.inRoom_bind p (fun _ _ => rfl) rfl fun _ =>
    cx.inRoom_bind p (fun room => evalWith_balanced cx room _ env cond)
      (cx.inRoom_eval p _ env cond) fun v => ?_
  cases v with
  | bool b =>
    cases b with
    | true => exact cx.inRoom_eval p _ env thenBranch
    | false => exact cx.inRoom_eval p _ env elseBranch
  | _ => rfl

theorem eval_caseOf (scrutinee : Term) (alternatives : List (Pattern × Term)) :
    cx.eval p env (.caseOf span scrutinee alternatives) = (do
      Eval.count .term
      let v ← cx.eval p env scrutinee
      Eval.count .case
      match Term.choose v alternatives with
      | some (bindings, body) => do
        let inner ← Eval.bind env bindings
        cx.eval p inner body
      | none =>
        throw (.fault ((Fault.noMatch cx.names v).withSite
          (.ofTerm (.caseOf span scrutinee alternatives))))) := by
  show cx.inRoom p
    (fun call => Term.evalWith cx call 0 env (.caseOf span scrutinee alternatives)) = _
  simp only [Term.evalWith, Eval.nested_eq, Term.evalFirst_eq]
  refine cx.inRoom_bind p (fun _ _ => rfl) rfl fun _ =>
    cx.inRoom_bind p (fun room => evalWith_balanced cx room _ env scrutinee)
      (cx.inRoom_eval p _ env scrutinee) fun v =>
        cx.inRoom_bind p (fun _ _ => rfl) rfl fun _ => ?_
  cases Term.choose v alternatives with
  | some chosen =>
    exact cx.inRoom_bind p (fun _ _ => rfl) rfl fun inner => cx.inRoom_eval p _ inner chosen.2
  | none => rfl

theorem eval_record (fields : List (Name × Term)) : cx.eval p env (.record span fields) = (do
    Eval.count .term
    let values ← cx.evalAll p env (fields.map (·.2))
    let stamp ← Eval.stamp
    pure (.ofFields stamp ((fields.map (·.1)).zip values))) := by
  show cx.inRoom p (fun call => Term.evalWith cx call 0 env (.record span fields)) = _
  simp only [Term.evalWith, Eval.nested_eq, Term.evalFields_eq, bind_assoc, pure_bind]
  exact cx.inRoom_bind p (fun _ _ => rfl) rfl fun _ =>
    cx.inRoom_bind p (fun room => CapLang.evalAll_balanced cx room _ env _)
      (cx.inRoom_evalAll p _ env _) fun values => rfl

theorem eval_field (base : Term) (x : Name) : cx.eval p env (.field span base x) = (do
    Eval.count .term
    match ← cx.eval p env base with
    | .record _ fields =>
      match Value.field? x fields with
      | some v => pure v
      | none =>
        Eval.raise (.ofTerm (.field span base x)) (.missingField (cx.names.resolve x))
    | .unit => Eval.raise (.ofTerm (.field span base x)) (.missingField (cx.names.resolve x))
    | v => Eval.raise (.ofTerm (.field span base x)) (.typeMismatch "Record" v.typeName)) := by
  show cx.inRoom p (fun call => Term.evalWith cx call 0 env (.field span base x)) = _
  simp only [Term.evalWith, Eval.nested_eq]
  refine cx.inRoom_bind p (fun _ _ => rfl) rfl fun _ =>
    cx.inRoom_bind p (fun room => evalWith_balanced cx room _ env base)
      (cx.inRoom_eval p _ env base) fun v => ?_
  cases v <;> rfl

theorem eval_variant (tag : Name) (payload : Term) :
    cx.eval p env (.variant span tag payload) = (do
      Eval.count .term
      let v ← cx.eval p env payload
      pure (.variant tag v)) := by
  show cx.inRoom p (fun call => Term.evalWith cx call 0 env (.variant span tag payload)) = _
  simp only [Term.evalWith, Eval.nested_eq]
  exact cx.inRoom_bind p (fun _ _ => rfl) rfl fun _ =>
    cx.inRoom_bind p (fun room => evalWith_balanced cx room _ env payload)
      (cx.inRoom_eval p _ env payload) fun v => rfl

theorem eval_prim (op : Operator) (args : List Term) : cx.eval p env (.prim span op args) = (do
    Eval.count .term
    let values ← cx.evalAll p env args
    Eval.count .primitive
    Eval.operate cx op values (.ofTerm (.prim span op args))) := by
  show cx.inRoom p (fun call => Term.evalWith cx call 0 env (.prim span op args)) = _
  simp only [Term.evalWith, Eval.nested_eq]
  exact cx.inRoom_bind p (fun _ _ => rfl) rfl fun _ =>
    cx.inRoom_bind p (fun room => CapLang.evalAll_balanced cx room _ env args)
      (cx.inRoom_evalAll p _ env args) fun values => rfl

theorem evalAll_nil : cx.evalAll p env [] = pure [] := rfl

theorem evalAll_cons (t : Term) (ts : List Term) : cx.evalAll p env (t :: ts) = (do
    let v ← cx.eval p env t
    let vs ← cx.evalAll p env ts
    pure (v :: vs)) := by
  show cx.inRoom p (fun call => Term.evalAll cx call 0 env (t :: ts)) = _
  simp only [Term.evalAll]
  exact cx.inRoom_bind p (fun room => evalWith_balanced cx room _ env t)
    (cx.inRoom_eval p _ env t) fun v =>
      cx.inRoom_bind p (fun room => CapLang.evalAll_balanced cx room _ env ts)
        (cx.inRoom_evalAll p _ env ts) fun vs => rfl

end Equations

/-! ## Calls -/

section Calls

variable {code : Code} (env : Env) {args : List Value} (site : Site) {m : Machine}

theorem apply_wrongCount (h : code.arity ≠ args.length) :
    cx.apply p code env args site m =
      Eval.raise site (.arityMismatch (code.callee cx.names) code.arity args.length) m := by
  unfold apply
  cases m.stack.room p with
  | zero => simp only [callWithin, cx.callWith_wrongCount _ env site h]
  | succ room => simp only [callWithin, cx.callWith_wrongCount _ env site h]

theorem apply_full {limit : Nat} (h : code.arity = args.length)
    (hl : m.stack.limit? = some limit) (hfull : limit ≤ m.stack.depth) :
    cx.apply p code env args site m =
      .error (.fault ((Fault.ofCause (.stackOverflow limit)).withSite site)) m := by
  unfold apply
  cases m.stack.room p with
  | zero => simp only [callWithin, cx.callWith_full _ env site h hl hfull]
  | succ room => simp only [callWithin, cx.callWith_full _ env site h hl hfull]

/-- The body of an admitted call is evaluated with the room that the call leaves. -/
theorem apply_entered (h : code.arity = args.length) (ha : m.Admits)
    (hroom : 0 < m.stack.room p) :
    cx.apply p code env args site m =
      Eval.body cx.names (cx.eval (p - 1)) code env args
        (m.entered ⟨code.name?, site.span⟩) := by
  obtain ⟨room, hr⟩ : ∃ room, m.stack.room p = room + 1 := ⟨m.stack.room p - 1, by omega⟩
  have hstart : cx.apply p code env args site m =
      Eval.body cx.names (fun env t => t.evalWith cx (cx.callWithin room) 1 env) code env args
        (m.entered ⟨code.name?, site.span⟩) := by
    unfold apply
    rw [hr]
    exact cx.callWith_entered _ env site h ha
  obtain ⟨inner, w, hinner⟩ := Eval.bodyEnv_apply code env args (m.entered ⟨code.name?, site.span⟩)
  have hrun : code.body.evalWith cx (cx.callWithin room) 1 inner
        { m.entered ⟨code.name?, site.span⟩ with world := w } =
      cx.eval (p - 1) inner code.body { m.entered ⟨code.name?, site.span⟩ with world := w } := by
    show _ = Term.evalWith cx (cx.callWithin ((m.stack.add ⟨code.name?, site.span⟩).room (p - 1)))
      0 inner code.body _
    rw [CallStack.room_add _ _ hr, evalWith_level cx room 1 0]
  rw [hstart]
  simp only [Eval.body, Eval.leaving, Eval.bind_of_ok hinner, hrun]

/-- Only without a limit can an admitted call find no room. -/
theorem apply_exhausted (h : code.arity = args.length) (ha : m.Admits)
    (hroom : m.stack.room p = 0) :
    m.stack.limit? = none ∧ ∃ m', cx.apply p code env args site m = .error .exhausted m' := by
  refine ⟨?_, ?_⟩
  · cases hl : m.stack.limit? with
    | none => rfl
    | some limit =>
      have hlt := ha limit hl
      simp only [CallStack.room, hl] at hroom
      omega
  · obtain ⟨inner, w, hinner⟩ :=
      Eval.bodyEnv_apply code env args (m.entered ⟨code.name?, site.span⟩)
    have hbody : (Eval.bodyEnv code env args >>= fun _ => (throw .exhausted : Eval Value))
        (m.entered ⟨code.name?, site.span⟩) =
          .error .exhausted { m.entered ⟨code.name?, site.span⟩ with world := w } :=
      Eval.bind_of_ok hinner
    refine ⟨Machine.leave { m.entered ⟨code.name?, site.span⟩ with world := w }, ?_⟩
    unfold apply
    rw [hroom]
    simp only [callWithin]
    rw [cx.callWith_entered _ env site h ha]
    exact Eval.leaving_of_exhausted hbody

end Calls

/-- **Induction on evaluation.**  A part of a term is evaluated with the same room, the body of a
call with less. -/
theorem eval_induction {motive : Nat → Env → Term → Machine → Prop}
    (step : ∀ p env t m,
      (∀ q env' t' m', m'.stack.room q < m.stack.room p ∨
        m'.stack.room q = m.stack.room p ∧ sizeOf t' < sizeOf t → motive q env' t' m') →
      motive p env t m)
    (p : Nat) (env : Env) (t : Term) (m : Machine) : motive p env t m := by
  suffices key : ∀ room size p env t m, m.stack.room p = room → sizeOf t = size →
      motive p env t m from key _ _ p env t m rfl rfl
  intro room
  -- On the room first, and for the same room on the size of the term.
  induction room using Nat.strongRecOn with
  | ind room ihroom =>
    intro size
    induction size using Nat.strongRecOn with
    | ind size ihsize =>
      rintro p env t m rfl rfl
      refine step p env t m fun q env' t' m' h => ?_
      rcases h with hlt | ⟨heq, hlt⟩
      · exact ihroom _ hlt _ q env' t' m' rfl rfl
      · exact ihsize _ hlt q env' t' m' heq rfl

end Context
end CapLang
