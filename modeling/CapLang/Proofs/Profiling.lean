import CapLang.Proofs.DepthLimit
import CapLang.Proofs.Invariants

/-!
# What a profile tells

A profiled run does what the run does, and its counts bound one another.  Each call, primitive and
case is counted during the evaluation of a term of its own, which is counted before it; and between
two calls every node of a program is evaluated at most once, so that the terms are no more than the
nodes of the program, once for the program and once for each call (`Counters.Spent`).  For the
second bound every function that is ever called has to be one of the program, which is an invariant
(`sized_invariant`).  The greatest depth is compared with the number of calls along a run
(`deepens_passage`).
-/
namespace CapLang

/-! ## Nodes of a term -/

mutual

/-- The number of nodes of a term, those of function bodies included. -/
def Term.size : Term → Nat
  | .literal .. | .var .. => 1
  | .lambda _ _ _ body => body.size + 1
  | .app _ func args => func.size + Term.sizeOfAll args + 1
  | .letIn _ _ value body => value.size + body.size + 1
  | .letRec _ _ functions body => Term.sizeOfGroup functions + body.size + 1
  | .ifThenElse _ c a b => c.size + (a.size + b.size) + 1
  | .caseOf _ e alternatives => e.size + Term.sizeOfAlternatives alternatives + 1
  | .record _ fields => Term.sizeOfFields fields + 1
  | .field _ e _ => e.size + 1
  | .variant _ _ e => e.size + 1
  | .prim _ _ args => Term.sizeOfAll args + 1

/-- The number of nodes of terms. -/
def Term.sizeOfAll : List Term → Nat
  | [] => 0
  | t :: ts => t.size + Term.sizeOfAll ts

/-- The number of nodes of function bodies. -/
def Term.sizeOfGroup : List (GroupHeader × Term) → Nat
  | [] => 0
  | (_, t) :: rest => t.size + Term.sizeOfGroup rest

/-- The number of nodes of the bodies of alternatives. -/
def Term.sizeOfAlternatives : List (Pattern × Term) → Nat
  | [] => 0
  | (_, t) :: rest => t.size + Term.sizeOfAlternatives rest

/-- The number of nodes of the values of fields. -/
def Term.sizeOfFields : List (Name × Term) → Nat
  | [] => 0
  | (_, t) :: rest => t.size + Term.sizeOfFields rest

end

/-- The number of nodes of the bodies that belong to the code. -/
def Code.size : Code → Nat
  | .lambda _ _ body => body.size
  | .member _ functions _ => Term.sizeOfGroup functions

namespace Term

theorem size_pos (t : Term) : 0 < t.size := by
  cases t <;> simp only [size] <;> omega

theorem size_le_of_mem {t : Term} {ts : List Term} (h : t ∈ ts) : t.size ≤ sizeOfAll ts := by
  induction ts with
  | nil => cases h
  | cons u us ih =>
    rw [sizeOfAll]
    rcases List.mem_cons.mp h with rfl | h
    · omega
    · have hle := ih h
      omega

theorem sizeOfGroup_eq (functions : List (GroupHeader × Term)) :
    sizeOfGroup functions = sizeOfAll (functions.map (·.2)) := by
  induction functions with
  | nil => rfl
  | cons f rest ih => rw [sizeOfGroup, ih]; rfl

theorem sizeOfAlternatives_eq (alternatives : List (Pattern × Term)) :
    sizeOfAlternatives alternatives = sizeOfAll (alternatives.map (·.2)) := by
  induction alternatives with
  | nil => rfl
  | cons a rest ih => rw [sizeOfAlternatives, ih]; rfl

theorem sizeOfFields_eq (fields : List (Name × Term)) :
    sizeOfFields fields = sizeOfAll (fields.map (·.2)) := by
  induction fields with
  | nil => rfl
  | cons f rest ih => rw [sizeOfFields, ih]; rfl

end Term

/-- The body that a call evaluates is no larger than the code, unless it is the empty record. -/
theorem Code.size_body {S : Nat} (hS : 0 < S) {code : Code} (h : code.size ≤ S) :
    code.body.size ≤ S := by
  cases code with
  | lambda id header body => exact h
  | member id functions i =>
    rw [Code.size, Term.sizeOfGroup_eq] at h
    rw [Code.body]
    cases hf : functions[i]? with
    | none => exact hS
    | some f =>
      have hmem : f.2 ∈ functions.map (·.2) := List.mem_map_of_mem (List.mem_of_getElem? hf)
      exact Nat.le_trans (Term.size_le_of_mem hmem) h

/-- **Evaluation only comes to code of the program**: no term and no function that it comes to is
larger than a term it began with. -/
theorem sized_invariant {cx : Context} (hi : cx.invoke = World.invoke) {start : World}
    (hstart : start.ReturnsParts) {S : Nat} (hS : 0 < S) :
    Invariant cx (Value.Functions fun code _ => code.size ≤ S) (fun _ t => t.size ≤ S)
      (start.Follows fun code _ => code.size ≤ S) where
  literal l := by cases l <;> trivial
  lambda h := by
    simp only [Term.size] at h
    exact Nat.le_of_succ_le h
  app h := by
    simp only [Term.size] at h
    refine ⟨by omega, fun a ha => ?_⟩
    have hle := Term.size_le_of_mem ha
    omega
  letIn h := by
    simp only [Term.size] at h
    exact ⟨by omega, fun _ _ => by omega⟩
  letRec h := by
    simp only [Term.size] at h
    refine ⟨fun i _ => ?_, fun _ => by omega⟩
    show Term.sizeOfGroup _ ≤ S
    omega
  ifThenElse h := by
    simp only [Term.size] at h
    exact ⟨by omega, by omega, by omega⟩
  caseOf {env span scrutinee alternatives} h := by
    simp only [Term.size, Term.sizeOfAlternatives_eq] at h
    refine ⟨by omega, fun p body hmem _ _ _ => ?_⟩
    have hmem' : body ∈ alternatives.map (·.2) := List.mem_map.mpr ⟨(p, body), hmem, rfl⟩
    have hle := Term.size_le_of_mem hmem'
    omega
  record h := by
    simp only [Term.size, Term.sizeOfFields_eq] at h
    refine ⟨fun u hu => ?_, fun _ _ _ => Value.functions_ofFields⟩
    have hle := Term.size_le_of_mem hu
    omega
  field h := by
    simp only [Term.size] at h
    exact Nat.le_of_succ_le h
  variant h := by
    simp only [Term.size] at h
    exact ⟨Nat.le_of_succ_le h, fun _ => trivial⟩
  prim h a ha := by
    simp only [Term.size] at h
    have hle := Term.size_le_of_mem ha
    omega
  body hgood _ _ _ := Code.size_body hS hgood
  members hgood _ _ := hgood
  stamp _ hw := hw.stamp
  operator _ hvalues hw happly := Operator.apply_follows hi hw hstart hvalues happly

/-! ## Accounts -/

namespace Counters

/-- What is counted besides terms. -/
def events (c : Counters) : Nat := c.applications + c.primitives + c.cases

/-- **An account of what was counted in between**: so many terms, and `S` more for each call; and no
more events than terms, except for a debt. -/
structure Spent (S nodes debt : Nat) (c c' : Counters) : Prop where
  terms : c'.terms + S * c.applications ≤ c.terms + S * c'.applications + nodes
  events : c'.events + c.terms ≤ c.events + c'.terms + debt

variable {S nodes debt n d : Nat} {c c₁ c' : Counters}

theorem Spent.mono (h : Spent S n d c c') (hn : n ≤ nodes) (hd : d ≤ debt) :
    Spent S nodes debt c c' where
  terms := by have hterms := h.terms; omega
  events := by have hevents := h.events; omega

theorem Spent.trans (h₁ : Spent S nodes 0 c c₁) (h₂ : Spent S n d c₁ c') :
    Spent S (nodes + n) d c c' where
  terms := by have hfirst := h₁.terms; have hsecond := h₂.terms; omega
  events := by have hfirst := h₁.events; have hsecond := h₂.events; omega

/-- The term that is counted first pays for itself and for one event. -/
theorem Spent.term (h : Spent S nodes 1 c.term c') : Spent S (nodes + 1) 0 c c' where
  terms := by
    have hterms := h.terms
    simp only [Counters.term] at hterms
    omega
  events := by
    have hevents := h.events
    simp only [Counters.term, Counters.events] at hevents ⊢
    omega

theorem Spent.primitive (h : Spent S nodes 0 c.primitive c') : Spent S nodes 1 c c' where
  terms := h.terms
  events := by
    have hevents := h.events
    simp only [Counters.primitive, Counters.events] at hevents ⊢
    omega

theorem Spent.case (h : Spent S nodes 0 c.case c') : Spent S nodes 1 c c' where
  terms := h.terms
  events := by
    have hevents := h.events
    simp only [Counters.case, Counters.events] at hevents ⊢
    omega

/-- A call pays for the terms of a body. -/
theorem Spent.application {depth : Nat} (h : Spent S n 0 (c.application depth) c') (hn : n ≤ S) :
    Spent S 0 1 c c' where
  terms := by
    have hterms := h.terms
    simp only [Counters.application, Nat.mul_add] at hterms
    omega
  events := by
    have hevents := h.events
    simp only [Counters.application, Counters.events] at hevents ⊢
    omega

end Counters

namespace Eval

variable {α β : Type} {S nodes debt n d : Nat} {x : Eval α} {f : α → Eval β} {m : Machine}

/-- What the step counts, if it counts, is so much. -/
def Spends (S nodes debt : Nat) (x : Eval α) (m : Machine) : Prop :=
  ∀ c, m.counters = some c →
    ∃ c', (x.after m).counters = some c' ∧ Counters.Spent S nodes debt c c'

theorem Spends.mono (h : x.Spends S n d m) (hn : n ≤ nodes) (hd : d ≤ debt) :
    x.Spends S nodes debt m := by
  intro c hc
  obtain ⟨c', hc', hspent⟩ := h c hc
  exact ⟨c', hc', hspent.mono hn hd⟩

/-- A step that counts nothing. -/
theorem Spends.free (h : (x.after m).counters = m.counters) : x.Spends S nodes debt m :=
  fun c hc => ⟨c, h.trans hc, by omega, by omega⟩

theorem Spends.bind (hx : x.Spends S nodes 0 m)
    (hf : ∀ a m₁, x m = .ok a m₁ → (f a).Spends S n d m₁) :
    (x >>= f).Spends S (nodes + n) d m := by
  intro c hc
  obtain ⟨c₁, hc₁, hspent⟩ := hx c hc
  cases h : x m with
  | ok a m₁ =>
    rw [after_of_ok h] at hc₁
    obtain ⟨c', hc', hrest⟩ := hf a m₁ h c₁ hc₁
    rw [bind_after_of_ok h]
    exact ⟨c', hc', hspent.trans hrest⟩
  | error e m₁ =>
    rw [bind_after_of_error h]
    exact ⟨c₁, hc₁, hspent.mono (Nat.le_add_right _ _) (Nat.zero_le _)⟩

/-- A step that counts nothing and another one after it. -/
theorem Spends.bind_free (hx : (x.after m).counters = m.counters)
    (hf : ∀ a m₁, x m = .ok a m₁ → (f a).Spends S n d m₁) : (x >>= f).Spends S n d m := by
  have hboth : (x >>= f).Spends S (0 + n) d m := .bind (.free hx) hf
  rwa [Nat.zero_add] at hboth

/-- A step and another one after it that counts nothing. -/
theorem Spends.bind_last (hx : x.Spends S nodes 0 m)
    (hf : ∀ a m₁, ((f a).after m₁).counters = m₁.counters) :
    (x >>= f).Spends S nodes debt m := by
  have hboth : (x >>= f).Spends S (nodes + 0) debt m := .bind hx fun a m₁ _ => .free (hf a m₁)
  exact hboth

variable {g : Unit → Eval α}

theorem Spends.term (h : (g ()).Spends S nodes 1 (m.counted .term)) :
    (count .term >>= g).Spends S (nodes + 1) 0 m := by
  intro c hc
  obtain ⟨c', hc', hspent⟩ := h c.term (by rw [Machine.counted, hc]; rfl)
  exact ⟨c', hc', hspent.term⟩

theorem Spends.primitive (h : (g ()).Spends S nodes 0 (m.counted .primitive)) :
    (count .primitive >>= g).Spends S nodes 1 m := by
  intro c hc
  obtain ⟨c', hc', hspent⟩ := h c.primitive (by rw [Machine.counted, hc]; rfl)
  exact ⟨c', hc', hspent.primitive⟩

theorem Spends.case (h : (g ()).Spends S nodes 0 (m.counted .case)) :
    (count .case >>= g).Spends S nodes 1 m := by
  intro c hc
  obtain ⟨c', hc', hspent⟩ := h c.case (by rw [Machine.counted, hc]; rfl)
  exact ⟨c', hc', hspent.case⟩

end Eval

/-! ## What evaluation counts -/

namespace Context

variable {cx : Context} {p S : Nat} {env : Env} {m : Machine}

/-- A call counts itself, and what its body counts is paid for by that. -/
theorem apply_spends {code : Code} {args : List Value} {site : Site}
    (hbody : ∀ {inner m₁}, cx.Calls (.apply code env args site m) [⟨code.name?, site.span⟩]
      (.eval inner code.body m₁) → code.body.size ≤ S ∧
        (m₁.stack.room (p - 1) < m.stack.room p →
          (cx.eval (p - 1) inner code.body).Spends S code.body.size 0 m₁)) :
    (cx.apply p code env args site).Spends S 0 1 m := by
  intro c hc
  rcases cx.apply_after p code env args site m with hsame | ⟨inner, m₁, hcalls, hentered, hend⟩
  · rw [hsame]
    exact ⟨c, hc, by omega, by omega⟩
  · rw [hc, Option.map_some] at hentered
    rcases hend with hleft | ⟨hroom, hleft⟩
    · have hnothing : Counters.Spent S 0 0 (c.application (m.stack.depth + 1)) _ :=
        ⟨Nat.le_refl _, Nat.le_refl _⟩
      rw [hleft]
      exact ⟨_, hentered, hnothing.application (Nat.zero_le S)⟩
    · obtain ⟨hsize, hrun⟩ := hbody hcalls
      obtain ⟨c', hc', hspent⟩ := hrun hroom _ hentered
      rw [hleft]
      exact ⟨c', hc', hspent.application hsize⟩

theorem evalAll_spends {ts : List Term} (hturn : ∀ {u m₁}, cx.Turn env ts m u m₁ →
    (cx.eval p env u).Spends S u.size 0 m₁) :
    (cx.evalAll p env ts).Spends S (Term.sizeOfAll ts) 0 m := by
  induction ts generalizing m with
  | nil => exact .free rfl
  | cons t ts ih =>
    rw [evalAll_cons]
    refine .bind (hturn .now) fun v m₁ hv => ?_
    exact .bind_last (ih fun turn => hturn (.later ⟨p, hv⟩ turn)) fun vs m₂ => rfl

/-- An operator counts nothing by itself. -/
theorem operate_counters (op : Operator) (args : List Value) (site : Site) :
    ((Eval.operate cx op args site).after m).counters = m.counters := by
  rw [Eval.operate_after]

/-- **What the evaluation of a term counts**, where no larger term is reached in the body of a
function: as many terms as it has nodes, besides those that calls account for, and no more events
than terms. -/
theorem eval_spends {good : Value → Prop} {holds : World → Prop}
    (inv : Invariant cx good (fun _ t => t.size ≤ S) holds) (p : Nat) (env : Env) (t : Term)
    (m : Machine) (hj : (Job.eval env t m).Suited good (fun _ t => t.size ≤ S) holds) :
    (cx.eval p env t).Spends S t.size 0 m := by
  induction p, env, t, m using Context.eval_induction with
  | step p env t m ih =>
    -- Parts are suited as the term is, and they are smaller.
    have part : ∀ {inner u m₁}, cx.Calls (.eval env t m) [] (.eval inner u m₁) →
        (cx.eval p inner u).Spends S u.size 0 m₁ := by
      intro inner u m₁ step
      obtain ⟨hstack, hsize⟩ := step.stays
      have hroom : m₁.stack.room p = m.stack.room p := congrArg (·.room p) hstack
      exact ih p inner u m₁ (.inr ⟨hroom, hsize⟩) (inv.within (.head step .refl) hj)
    cases t with
    | literal span l =>
      rw [eval_literal]
      exact .term (.free rfl)
    | var span x =>
      rw [eval_var]
      refine .term ?_
      cases env.lookup x with
      | some v => exact .free rfl
      | none => exact .free rfl
    | lambda span id header body =>
      rw [eval_lambda]
      exact .term (.free rfl)
    | app span func args =>
      rw [eval_app]
      simp only [Term.size]
      refine .term (.bind (part .func) fun v m₁ hfunc => ?_)
      cases v with
      | closure code closed =>
        have hargs := cx.evalAll_spends fun turn =>
          part (.argument ⟨p, hfunc⟩ turn)
        refine Eval.Spends.bind (n := 0) hargs fun values m₂ hvalues => ?_
        have hcall : cx.Calls (.eval env (.app span func args) m) []
            (.apply code closed values (.ofTerm (.app span func args)) m₂) :=
          .call ⟨p, hfunc⟩ ⟨p, hvalues⟩
        have hstack : m₂.stack = m.stack := hcall.stays.1
        refine apply_spends fun {inner m₃} enters => ?_
        have hbody := inv.within (.head hcall (.head enters .refl)) hj
        refine ⟨hbody.2.1, fun hroom => ?_⟩
        rw [hstack] at hroom
        exact ih (p - 1) inner code.body m₃ (.inl hroom) hbody
      | _ => exact .free rfl
    | letIn span x value body =>
      rw [eval_letIn]
      simp only [Term.size]
      refine .term (.bind (part .letValue) fun v m₁ hvalue => .bind_free rfl fun inner m₂ h => ?_)
      cases h
      exact (part (.letBody ⟨p, hvalue⟩)).mono (Nat.le_refl _) (Nat.zero_le _)
    | letRec span id functions body =>
      rw [eval_letRec]
      simp only [Term.size]
      refine .term (.bind_free rfl fun stamp m₁ h => ?_)
      cases h
      exact (part .letRecBody).mono (Nat.le_add_left _ _) (Nat.zero_le _)
    | ifThenElse span cond thenBranch elseBranch =>
      rw [eval_ifThenElse]
      simp only [Term.size]
      refine .term (.bind (part .condition) fun v m₁ hcond => ?_)
      cases v with
      | bool b =>
        have hbranch := part (.branch ⟨p, hcond⟩)
        refine hbranch.mono ?_ (Nat.zero_le _)
        cases b with
        | true => exact Nat.le_add_right _ _
        | false => exact Nat.le_add_left _ _
      | _ => exact .free rfl
    | caseOf span scrutinee alternatives =>
      rw [eval_caseOf]
      simp only [Term.size, Term.sizeOfAlternatives_eq]
      refine .term (.bind (part .scrutinee) fun v m₁ hvalue => .case ?_)
      cases hchosen : Term.choose v alternatives with
      | some chosen =>
        obtain ⟨bindings, body⟩ := chosen
        refine .bind_free rfl fun inner m₂ h => ?_
        cases h
        obtain ⟨q, hmem, -⟩ := Term.choose_mem hchosen
        refine (part (.alternative ⟨p, hvalue⟩ hchosen)).mono ?_ (Nat.zero_le _)
        exact Term.size_le_of_mem (List.mem_map.mpr ⟨_, hmem, rfl⟩)
      | none => exact .free rfl
    | record span fields =>
      rw [eval_record]
      simp only [Term.size, Term.sizeOfFields_eq]
      refine .term (.bind_last (cx.evalAll_spends fun turn => part (.fieldValue turn)) ?_)
      exact fun values m₁ => rfl
    | field span base x =>
      rw [eval_field]
      simp only [Term.size]
      refine .term (.bind_last (part .base) fun v m₁ => ?_)
      cases v with
      | record stamp fields =>
        cases hfield : Value.field? x fields with
        | some v =>
          simp only [hfield]
          rfl
        | none =>
          simp only [hfield]
          rfl
      | _ => rfl
    | variant span tag payload =>
      rw [eval_variant]
      simp only [Term.size]
      exact .term (.bind_last (part .payload) fun v m₁ => rfl)
    | prim span op args =>
      rw [eval_prim]
      simp only [Term.size]
      have hargs := cx.evalAll_spends fun turn =>
        part (.operand turn)
      refine .term (Eval.Spends.bind (n := 0) hargs fun values m₁ _ => .primitive (.free ?_))
      exact operate_counters op values _

end Context

/-! ## Depth and calls -/

/-- What the greatest depth has to do with the calls that are entered: it grows with each of them by
at most one, and once a call is entered it is beyond the calls that were under way. -/
structure Machine.Deepens (m m' : Machine) : Prop where
  stack : m'.stack = m.stack
  counts : ∀ c, m.counters = some c → ∃ c', m'.counters = some c' ∧
    c.applications ≤ c'.applications ∧ c.maxDepth ≤ c'.maxDepth ∧
    c'.maxDepth ≤ max c.maxDepth (m.stack.depth + (c'.applications - c.applications)) ∧
    (c.applications < c'.applications → m.stack.depth < c'.maxDepth)

namespace Machine.Deepens

theorem refl (m : Machine) : m.Deepens m where
  stack := rfl
  counts c h := ⟨c, h, Nat.le_refl _, Nat.le_refl _, Nat.le_max_left _ _,
    fun hlt => absurd hlt (Nat.lt_irrefl _)⟩

theorem trans {m₁ m₂ m₃ : Machine} (h₁ : m₁.Deepens m₂) (h₂ : m₂.Deepens m₃) :
    m₁.Deepens m₃ where
  stack := h₂.stack.trans h₁.stack
  counts c₁ hc₁ := by
    obtain ⟨c₂, hc₂, hcalls₁, hdepth₁, hmost₁, hleast₁⟩ := h₁.counts c₁ hc₁
    obtain ⟨c₃, hc₃, hcalls₂, hdepth₂, hmost₂, hleast₂⟩ := h₂.counts c₂ hc₂
    rw [h₁.stack] at hmost₂ hleast₂
    refine ⟨c₃, hc₃, by omega, by omega, by omega, fun hlt => ?_⟩
    by_cases hfirst : c₁.applications < c₂.applications
    · have hdeep := hleast₁ hfirst
      omega
    · exact hleast₂ (by omega)

/-- To count something else makes no difference. -/
theorem counted (m : Machine) {f : Counters → Counters}
    (hcalls : ∀ c, (f c).applications = c.applications)
    (hdepth : ∀ c, (f c).maxDepth = c.maxDepth) : m.Deepens (m.counted f) where
  stack := rfl
  counts c h := by
    refine ⟨f c, by rw [Machine.counted, h]; rfl, ?_⟩
    rw [hcalls, hdepth]
    omega

/-- A call is entered, its body runs, and it is left. -/
theorem call {m m' : Machine} (c : Call) (h : (m.entered c).Deepens m') : m.Deepens m'.leave where
  stack := by rw [leave_stack, h.stack, entered_stack, CallStack.pop_add]
  counts d hd := by
    obtain ⟨d', hd', hcalls, hdepth, hmost, hleast⟩ :=
      h.counts (d.application (m.stack.depth + 1)) (by rw [entered, hd]; rfl)
    have hstack : (m.entered c).stack.depth = m.stack.depth + 1 := rfl
    simp only [Counters.application, hstack] at hcalls hdepth hmost hleast
    exact ⟨d', hd', by omega, by omega, by omega, fun _ => by omega⟩

end Machine.Deepens

theorem deepens_passage (cx : Context) : Passage cx Machine.Deepens where
  refl := .refl
  trans := .trans
  term m := .counted m (fun _ => rfl) fun _ => rfl
  case m := .counted m (fun _ => rfl) fun _ => rfl
  primitive m := .counted m (fun _ => rfl) fun _ => rfl
  stamp m := ⟨rfl, (Machine.Deepens.refl m).counts⟩
  operate _ _ m := ⟨rfl, (Machine.Deepens.refl m).counts⟩
  call := .call

/-! ## Profiles -/

theorem Counters.reading_eq {c : Counters} (hterms : c.terms < UInt64.size)
    (hevents : c.events ≤ c.terms) : c.reading = c := by
  unfold events at hevents
  simp only [reading, Nat.mod_eq_of_lt hterms,
    Nat.mod_eq_of_lt (show c.applications < UInt64.size by omega),
    Nat.mod_eq_of_lt (show c.primitives < UInt64.size by omega),
    Nat.mod_eq_of_lt (show c.cases < UInt64.size by omega)]

namespace Runner

variable (r : Runner) (p : Nat) (t : Term) (w : World)

/-- What a run counts is an account of one evaluation of the program. -/
theorem runProfiled_spent (hi : r.context.invoke = World.invoke) (hreturns : w.ReturnsParts) :
    Counters.Spent t.size t.size 0 .zero (r.runProfiled p t w).2.1 := by
  have hsuited : (Job.eval .empty t (.start r.mode true w)).Suited
      (Value.Functions fun code _ => code.size ≤ t.size) (fun _ u => u.size ≤ t.size)
      (w.Follows fun code _ => code.size ≤ t.size) := ⟨nofun, Nat.le_refl _, .refl w⟩
  obtain ⟨c, hc, hspent⟩ := Context.eval_spends (sized_invariant hi hreturns t.size_pos) p .empty t
    (.start r.mode true w) hsuited .zero rfl
  rw [r.runProfiled_after p t w, hc]
  exact hspent

/-- Without calls no depth is reached, and with calls no more than their number. -/
theorem runProfiled_depth :
    (r.runProfiled p t w).2.1.maxDepth ≤ (r.runProfiled p t w).2.1.applications ∧
    ((r.runProfiled p t w).2.1.maxDepth = 0 ↔ (r.runProfiled p t w).2.1.applications = 0) := by
  have hdeepens : (Machine.start r.mode true w).Deepens _ :=
    (deepens_passage r.context).evalWith ((Machine.start r.mode true w).stack.room p) 0 .empty t _
  obtain ⟨c, hc, -, -, hmost, hleast⟩ := hdeepens.counts .zero rfl
  have hcounts : (r.runProfiled p t w).2.1 = c := by
    rw [r.runProfiled_after p t w]
    exact congrArg (·.getD .zero) hc
  have hzero : (Machine.start r.mode true w).stack.depth = 0 := rfl
  simp only [Counters.zero, hzero] at hmost hleast
  rw [hcounts]
  omega

/-- No depth beyond the limit is ever reached. -/
theorem runProfiled_maxDepth_le (hi : r.context.invoke = World.invoke) {limit : Nat}
    (hl : r.mode.limit? = some limit) : (r.runProfiled p t w).2.1.maxDepth ≤ limit := by
  have hhigher : ∀ l, Mode.unbounded.limit? = some l → limit < l := nofun
  have hagree := runProfiled_agree hi hl hhigher (fun _ => Nat.le_refl limit) p t w
  rcases hagree with ⟨-, hle⟩ | ⟨f, -, -, heq, -⟩
  · exact hle
  · exact Nat.le_of_eq heq

end Runner

/-- **Profiling is faithful.**  A profiled run comes to what the run comes to and leaves the same
world, the record of calls included.  Whatever it comes to, a host that reads the counts reads them
as they are; each call, primitive and case goes with a term of its own; each call accounts for one
more round through the program at most; and the greatest depth is at most the number of calls,
is zero only without calls, and keeps to the limit. -/
theorem profiling_faithful (names : NameTable) (registry : Registry) (mode : Mode) (p : Nat)
    (t : Term) (w : World) (hreturns : w.ReturnsParts)
    (hterms : ((⟨⟨names, registry, World.invoke⟩, mode⟩ : Runner).runProfiled p t w).2.1.terms <
      UInt64.size) :
    let r : Runner := ⟨⟨names, registry, World.invoke⟩, mode⟩
    let (outcome, counters, w') := r.runProfiled p t w
    let c := counters.reading
    r.run p t w = (outcome, w') ∧
    c = counters ∧
    c.applications + c.primitives + c.cases ≤ c.terms ∧
    c.terms ≤ (1 + c.applications) * t.size ∧
    c.maxDepth ≤ c.applications ∧
    (c.maxDepth = 0 ↔ c.applications = 0) ∧
    ∀ limit, mode.limit? = some limit → c.maxDepth ≤ limit := by
  intro r
  have hspent := r.runProfiled_spent p t w rfl hreturns
  obtain ⟨hcalls, hzero⟩ := r.runProfiled_depth p t w
  have hlimit := @Runner.runProfiled_maxDepth_le r p t w rfl
  have hrun := r.run_eq_runProfiled p t w
  change (r.runProfiled p t w).2.1.terms < UInt64.size at hterms
  generalize r.runProfiled p t w = out at hspent hcalls hzero hlimit hrun hterms ⊢
  obtain ⟨outcome, c, w'⟩ := out
  have hevents : c.events ≤ c.terms := by
    have hle := hspent.events
    simp only [Counters.zero, Counters.events] at hle ⊢
    omega
  have hreading : c.reading = c := Counters.reading_eq hterms hevents
  show r.run p t w = (outcome, w') ∧ c.reading = c ∧ _
  rw [hreading]
  refine ⟨hrun, rfl, hevents, ?_, hcalls, hzero, fun limit => hlimit⟩
  have hle : c.terms + t.size * 0 ≤ 0 + t.size * c.applications + t.size := hspent.terms
  rw [Nat.add_mul, Nat.one_mul, Nat.mul_comm c.applications]
  omega

/-- A function is handed to a host object and called when it comes back. -/
theorem echoed_function_profile :
    let names : NameTable := ⟨#["", "echo", "give", "x"]⟩
    let registry : Registry := Registry.empty.register ⟨⟨1⟩, ⟨0⟩, "Echo"⟩
    let r : Runner := ⟨⟨names, registry, World.invoke⟩, .bounded 1⟩
    let t : Term := .app none
      (.prim none (.invoke ⟨2⟩)
        [.prim none (.capability ⟨1⟩) [], .lambda none ⟨0⟩ ⟨none, [⟨3⟩]⟩ (.var none ⟨3⟩)])
      [.literal none (.int 1)]
    let (outcome, counters, w') := r.runProfiled 0 t Echo.world
    Echo.world.ReturnsParts ∧ counters = ⟨6, 1, 2, 0, 1⟩ ∧ counters.terms < UInt64.size ∧
    t.size = 6 ∧ outcome = .ok (.int 1) ∧ r.run 0 t Echo.world = (outcome, w') ∧
    counters.reading.terms ≤ (1 + counters.reading.applications) * t.size := by
  intro names registry r t
  have hcounts : (r.runProfiled 0 t Echo.world).2.1 = ⟨6, 1, 2, 0, 1⟩ := rfl
  have hterms : (r.runProfiled 0 t Echo.world).2.1.terms < UInt64.size := by
    rw [hcounts]
    decide
  obtain ⟨hrun, -, -, hround, -⟩ := profiling_faithful names registry (.bounded 1) 0 t Echo.world
    Echo.returnsParts hterms
  exact ⟨Echo.returnsParts, hcounts, hterms, rfl, rfl, hrun, hround⟩

end CapLang
