import CapLang.Proofs.Coupling
import CapLang.Proofs.FreeOccurrences
import CapLang.Proofs.Hosts
import CapLang.Proofs.Shadowing

/-!
# Environments that agree

Of its environment a term uses nothing but what its free variables stand for.  Since functions keep
environments, this is a statement about two evaluations whose values need not be equal but only
*related* (`Value.Related`): functions are related if they have the same code and their
environments agree, in turn up to related values, on the names that are free in it.  Host objects
see values too, and are taken to answer related arguments alike (`World.AnswersAlike`).
-/
namespace CapLang

open FreeVariable
open Value (Fieldwise Faithful)

/-- **Related values** are alike but for stamps, and but for what the environments of functions
hold beside the free variables of the code. -/
inductive Value.Related : Value → Value → Prop
  | int (n : Int64) : Related (.int n) (.int n)
  | bool (b : Bool) : Related (.bool b) (.bool b)
  | str (s : String) : Related (.str s) (.str s)
  | unit : Related .unit .unit
  | closure {code : Code} {env₁ env₂ : Env} (agree : ∀ o ∈ code.freeOccurrences,
      Option.Rel Related (env₁.lookup o.name) (env₂.lookup o.name)) :
      Related (.closure code env₁) (.closure code env₂)
  | record (s₁ s₂ : Stamp) {fs gs : List (Name × Value)} (fields : Fieldwise Related fs gs) :
      Related (.record s₁ fs) (.record s₂ gs)
  | variant (tag : Name) {v w : Value} (payload : Related v w) :
      Related (.variant tag v) (.variant tag w)
  | capability (h : Handle) : Related (.capability h) (.capability h)

namespace Value

theorem related_faithful : Faithful Related := by
  intro v w h
  cases h with
  | int n => exact .int n
  | bool b => exact .bool b
  | str s => exact .str s
  | unit => exact .unit
  | closure agree => exact .closure _ _ _
  | record s₁ s₂ fields => exact .record s₁ s₂ fields
  | variant tag payload => exact .variant tag payload
  | capability h => exact .capability h

end Value

mutual

/-- Every value is related to itself. -/
theorem Value.related_refl : ∀ v : Value, v.Related v
  | .int n => .int n
  | .bool b => .bool b
  | .str s => .str s
  | .unit => .unit
  | .closure _ env => .closure fun o _ => Env.lookup_refl env o.name
  | .record stamp fields => .record stamp stamp (Value.fields_refl fields)
  | .variant tag payload => .variant tag (Value.related_refl payload)
  | .capability h => .capability h

theorem Env.lookup_refl : ∀ (env : Env) (x : Name),
    Option.Rel Value.Related (env.lookup x) (env.lookup x)
  | .empty, _ => .none
  | .frame stamp bindings outer, x => by
    have hinner := (Value.fields_refl bindings).lookup_extendMany stamp stamp
      fun _ => Env.lookup_refl outer x
    cases bindings with
    | nil => exact Env.lookup_refl outer x
    | cons b bs => exact hinner

theorem Value.fields_refl : ∀ fields : List (Name × Value), Fieldwise Value.Related fields fields
  | [] => .nil
  | (_, v) :: rest => .cons (Value.related_refl v) (Value.fields_refl rest)

end

/-! ## Agreement on free occurrences -/

/-- In both environments the names of the occurrences stand for related values, or for nothing. -/
def Env.Agree (occurrences : List FreeVariable) (env₁ env₂ : Env) : Prop :=
  ∀ o ∈ occurrences, Option.Rel Value.Related (env₁.lookup o.name) (env₂.lookup o.name)

namespace Env.Agree

variable {env₁ env₂ : Env} {occurrences others : List FreeVariable}

theorem subset (h : Env.Agree occurrences env₁ env₂) (hsub : ∀ o ∈ others, o ∈ occurrences) :
    Env.Agree others env₁ env₂ := fun o ho => h o (hsub o ho)

theorem append : Env.Agree (occurrences ++ others) env₁ env₂ ↔
    Env.Agree occurrences env₁ env₂ ∧ Env.Agree others env₁ env₂ := List.forall_mem_append

/-- Related bindings for the names of a binder make for agreement in its scope. -/
theorem extendMany {bound : List Name} (h : Env.Agree (outside bound occurrences) env₁ env₂)
    (s₁ s₂ : Stamp) {bs₁ bs₂ : List (Name × Value)} (hnames : bs₁.map (·.1) = bound)
    (hbindings : Fieldwise Value.Related bs₁ bs₂) :
    Env.Agree occurrences (env₁.extendMany s₁ bs₁) (env₂.extendMany s₂ bs₂) := by
  intro o ho
  refine hbindings.lookup_extendMany s₁ s₂ fun hfree => h o (mem_outside.mpr ⟨ho, ?_⟩)
  rwa [← hnames]

/-- Groups around environments that agree are groups of related functions. -/
theorem bindGroup {id : CodeId} {functions : List (GroupHeader × Term)}
    (hgroup : Env.Agree (Code.member id functions 0).freeOccurrences env₁ env₂)
    (h : Env.Agree (outside (functions.map (·.1.binder)) occurrences) env₁ env₂)
    (s₁ s₂ : Stamp) :
    Env.Agree occurrences (env₁.bindGroup s₁ id functions)
      (env₂.bindGroup s₂ id functions) := by
  refine h.extendMany s₁ s₂ ?_ (Fieldwise.mapIdx functions (fun _ _ => rfl) fun _ _ => ?_)
  · exact Env.names_group id functions env₁
  · exact .closure hgroup

end Env.Agree

/-- A call of related functions on related arguments runs in environments that agree. -/
theorem Value.Related.body {code : Code} {env₁ env₂ : Env}
    (h : (Value.closure code env₁).Related (.closure code env₂)) {args₁ args₂ : List Value}
    (ha : List.Forall₂ Value.Related args₁ args₂) (hcount : code.arity = args₁.length)
    (s₁ s₂ s₁' s₂' : Stamp) :
    Env.Agree code.body.freeOccurrences
      ((env₁.ofCode s₁ code).extendMany s₁' (code.params.zip args₁))
      ((env₂.ofCode s₂ code).extendMany s₂' (code.params.zip args₂)) := by
  have hnames : (code.params.zip args₁).map (·.1) = code.params :=
    List.map_fst_zip (Nat.le_of_eq hcount)
  refine Env.Agree.extendMany ?_ s₁' s₂' hnames (Fieldwise.zip ha code.params)
  cases h with
  | closure agree =>
    -- The group of a member is bound anew, outside the parameters.
    cases code with
    | lambda id header body => exact agree
    | member id functions i =>
      have hgroup : Env.Agree (Term.occurrencesOfGroup functions) (env₁.bindGroup s₁ id functions)
          (env₂.bindGroup s₂ id functions) := Env.Agree.bindGroup agree agree s₁ s₂
      exact hgroup.subset fun o ho => Code.mem_occurrencesOfGroup ho

/-! ## Worlds -/

/-- Two calls through one handle to one method, with related arguments. -/
structure Invocation.Related (i j : Invocation) : Prop where
  handle : i.handle = j.handle
  method : i.method = j.method
  args : List.Forall₂ Value.Related i.args j.args

namespace World

/-- **Objects of the host's own answer related arguments alike**, if the calls that objects have
received in the meantime are related. -/
def AnswersAlike (w : World) : Prop :=
  ∀ kind answer, .custom kind answer ∈ w.objects →
    ∀ later₁ later₂, List.Forall₂ Invocation.Related later₁ later₂ →
      ∀ method args₁ args₂, List.Forall₂ Value.Related args₁ args₂ →
        SameAnswer Value.Related (answer (later₁ ++ w.calls) method args₁)
          (answer (later₂ ++ w.calls) method args₂)

/-- Since `start`, objects have received related calls in `w₁` and `w₂`; in all else the two worlds
are equal. -/
structure Parallel (start w₁ w₂ : World) : Prop where
  objects : w₁.objects = w₂.objects
  lent : ∀ kind answer, .custom kind answer ∈ w₁.objects → .custom kind answer ∈ start.objects
  stamps : w₁.stamps = w₂.stamps
  calls : ∃ later₁ later₂, w₁.calls = later₁ ++ start.calls ∧ w₂.calls = later₂ ++ start.calls ∧
    List.Forall₂ Invocation.Related later₁ later₂
  input : w₁.input = w₂.input
  output : w₁.output = w₂.output

namespace Parallel

variable {start w₁ w₂ : World}

theorem refl (w : World) : w.Parallel w w :=
  ⟨rfl, fun _ _ h => h, rfl, ⟨[], [], rfl, rfl, .nil⟩, rfl, rfl⟩

theorem record (hw : start.Parallel w₁ w₂) {i j : Invocation} (hij : i.Related j) :
    start.Parallel { w₁ with calls := i :: w₁.calls } { w₂ with calls := j :: w₂.calls } := by
  obtain ⟨later₁, later₂, hcalls₁, hcalls₂, hlater⟩ := hw.calls
  refine ⟨hw.objects, hw.lent, hw.stamps, ⟨i :: later₁, j :: later₂, ?_, ?_, .cons hij hlater⟩,
    hw.input, hw.output⟩
  · rw [hcalls₁, List.cons_append]
  · rw [hcalls₂, List.cons_append]

theorem write (hw : start.Parallel w₁ w₂) {id : ObjectId} {sink : Sink}
    (hsink : w₁.object? id = some (.writer sink)) (s : String) :
    start.Parallel (w₁.write id s sink) (w₂.write id s sink) := by
  have hlent : ∀ kind answer, .custom kind answer ∈ (w₁.write id s sink).objects →
      .custom kind answer ∈ start.objects := fun kind answer hmem =>
    hw.lent kind answer (custom_mem_of_added (w₁.object?_write id · s sink hsink) hmem)
  cases sink with
  | buffer written =>
    refine ⟨?_, hlent, hw.stamps, hw.calls, hw.input, hw.output⟩
    simp only [World.write, hw.objects]
  | silent => exact hw
  | standardOutput =>
    exact ⟨hw.objects, hlent, hw.stamps, hw.calls, hw.input, congrArg (· ++ s) hw.output⟩

theorem read (hw : start.Parallel w₁ w₂) (origin : Origin) :
    SameAnswer Value.Related (w₁.read origin).1 (w₂.read origin).1 ∧
      start.Parallel (w₁.read origin).2 (w₂.read origin).2 := by
  cases origin with
  | text s => exact ⟨.value (.str s), hw⟩
  | standardInput =>
    have hrest : start.Parallel { w₁ with input := ByteArray.empty }
        { w₂ with input := ByteArray.empty } :=
      ⟨hw.objects, hw.lent, hw.stamps, hw.calls, rfl, hw.output⟩
    simp only [World.read, hw.input]
    cases String.fromUTF8? w₂.input with
    | some s => exact ⟨.value (.str s), hrest⟩
    | none => exact ⟨.error _, hrest⟩

/-- **Calls with related arguments come to the same.** -/
theorem invoke (hw : start.Parallel w₁ w₂) (hstart : start.AnswersAlike) (h : Handle)
    (method : String) {args₁ args₂ : List Value} (ha : List.Forall₂ Value.Related args₁ args₂) :
    SameAnswer Value.Related (w₁.invoke h method args₁).1 (w₂.invoke h method args₂).1 ∧
      start.Parallel (w₁.invoke h method args₁).2 (w₂.invoke h method args₂).2 := by
  have hcall : (Invocation.mk h method args₁).Related ⟨h, method, args₂⟩ := ⟨rfl, rfl, ha⟩
  have hrecord := hw.record hcall
  have hobject : w₁.object? h.object = w₂.object? h.object := by rw [object?, object?, hw.objects]
  unfold World.invoke
  rw [← hobject]
  cases hfound : w₁.object? h.object with
  | none => exact ⟨.error _, hrecord⟩
  | some object =>
    cases object with
    | writer sink =>
      simp only [Sink.request_eq Value.related_faithful method ha]
      cases Sink.request method args₂ with
      | ok s => exact ⟨.value .unit, hrecord.write hfound s⟩
      | error cause => exact ⟨.error _, hrecord⟩
    | reader origin =>
      simp only [Origin.request_eq method ha]
      cases Origin.request method args₂ with
      | ok => exact hrecord.read origin
      | error cause => exact ⟨.error _, hrecord⟩
    | custom kind answer =>
      obtain ⟨later₁, later₂, hcalls₁, hcalls₂, hlater⟩ := hw.calls
      have hlent := hw.lent kind answer (Array.mem_of_getElem? hfound)
      have hanswer := hstart kind answer hlent later₁ later₂ hlater method args₁ args₂ ha
      rw [← hcalls₁, ← hcalls₂] at hanswer
      exact ⟨hanswer, hrecord⟩

end Parallel
end World

/-! ## Evaluations in environments that agree -/

/-- **Environments that agree on what is free are as good as equal.** -/
theorem agreement_coupling {cx : Context} (hi : cx.invoke = World.invoke) {start : World}
    (hstart : start.AnswersAlike) :
    Coupling cx cx Value.Related (fun env₁ env₂ t => Env.Agree t.freeOccurrences env₁ env₂)
      (fun _ _ => True) start.Parallel where
  names := rfl
  faithful := Value.related_faithful
  literal l := Value.related_refl _
  var h := h _ List.mem_cons_self
  lambda h := .closure h
  app h := by
    obtain ⟨hfunc, hargs⟩ := Env.Agree.append.mp h
    exact ⟨hfunc, fun a ha => hargs.subset fun o ho => Term.mem_occurrencesOfAll.mpr ⟨a, ha, ho⟩⟩
  letIn h := by
    obtain ⟨hvalue, hbody⟩ := Env.Agree.append.mp h
    exact ⟨hvalue, fun s₁ s₂ v w _ hv => hbody.extendMany s₁ s₂ rfl (.cons hv .nil)⟩
  letRec {env₁ env₂ span id functions body} h s₁ s₂ _ := by
    rw [Term.freeOccurrences, outside_append] at h
    obtain ⟨hgroup, hbody⟩ := Env.Agree.append.mp h
    exact Env.Agree.bindGroup hgroup hbody s₁ s₂
  ifThenElse h := by
    obtain ⟨hcond, hbranches⟩ := Env.Agree.append.mp h
    exact ⟨hcond, Env.Agree.append.mp hbranches⟩
  caseOf h := by
    obtain ⟨hscrutinee, hbodies⟩ := Env.Agree.append.mp h
    refine ⟨hscrutinee, fun p body hmem s₁ s₂ bs₁ bs₂ _ hnames hbindings => ?_⟩
    refine Env.Agree.extendMany (hbodies.subset fun o ho => ?_) s₁ s₂ hnames hbindings
    exact Term.mem_occurrencesOfAlternatives.mpr ⟨(p, body), hmem, mem_outside.mp ho⟩
  record h u hu := h.subset fun o ho => Term.mem_occurrencesOfFields.mpr ⟨u, hu, ho⟩
  ofFields _ hfields := by
    cases hfields with
    | nil => exact .unit
    | cons head rest => exact .record _ _ (.cons head rest)
  field h := h
  payload h := h
  variant h := .variant _ h
  prim h a ha := h.subset fun o ho => Term.mem_occurrencesOfAll.mpr ⟨a, ha, ho⟩
  body h ha hcount s₁ s₂ s₁' s₂' _ _ := h.body ha hcount s₁ s₂ s₁' s₂'
  stamp {w₁ w₂} hw :=
    ⟨trivial, hw.objects, hw.lent, congrArg (· + 1) hw.stamps, hw.calls, hw.input, hw.output⟩
  fetch _ := optionRel_refl Value.Related.capability _
  host {h method args₁ args₂ w₁ w₂} _ ha hw := by
    rw [hi]
    exact hw.invoke hstart h method ha

/-- **Evaluation sees of its environment only the free variables.**  In two environments that give
them related values, or none, a term comes to related values or to the very same fault, with the
same counters and the same calls of host objects up to related arguments.  So frames that bind
other names, or names that are bound again, do not matter, and neither does whether names are bound
in one frame or in many. -/
theorem free_variables_suffice (names : NameTable) (registry : Registry) (p : Nat) (t : Term)
    (m : Machine) (hobjects : m.world.AnswersAlike) :
    let cx : Context := ⟨names, registry, World.invoke⟩
    let Same (env₁ env₂ : Env) : Prop :=
      SameEnd m.world.Parallel Value.Related (cx.eval p env₁ t m) (cx.eval p env₂ t m)
    (∀ env₁ env₂ : Env, (∀ y ∈ t.freeVariables,
        Option.Rel Value.Related (env₁.lookup y.name) (env₂.lookup y.name)) → Same env₁ env₂) ∧
    (∀ env₁ env₂ : Env, (∀ y ∈ t.freeVariables, env₁.lookup y.name = env₂.lookup y.name) →
        Same env₁ env₂) ∧
    (∀ (env : Env) (stamp : Stamp) (frames : List (Stamp × Name × Value)),
        Same (env.extendMany stamp (frames.map (·.2)))
          (frames.foldl (fun env f => env.extend f.1 f.2.1 f.2.2) env)) := by
  intro cx Same
  have hrelated : ∀ env₁ env₂ : Env, (∀ y ∈ t.freeVariables,
      Option.Rel Value.Related (env₁.lookup y.name) (env₂.lookup y.name)) → Same env₁ env₂ := by
    intro env₁ env₂ hfree
    have hagree : Env.Agree t.freeOccurrences env₁ env₂ := by
      intro o ho
      obtain ⟨y, hy, hname⟩ := Term.exists_mem_freeVariables.mpr ⟨o, ho, rfl⟩
      have hlookup := hfree y hy
      rwa [hname] at hlookup
    have hcoupling := @agreement_coupling cx rfl m.world hobjects
    exact hcoupling.eval p hagree m m ⟨rfl, rfl, .refl m.world⟩
  have hequal : ∀ env₁ env₂ : Env,
      (∀ y ∈ t.freeVariables, env₁.lookup y.name = env₂.lookup y.name) → Same env₁ env₂ := by
    intro env₁ env₂ hfree
    refine hrelated env₁ env₂ fun y hy => ?_
    rw [← hfree y hy]
    exact Env.lookup_refl env₁ y.name
  exact ⟨hrelated, hequal, fun env stamp frames => hequal _ _ fun y _ =>
    (Env.lookup_foldl_extend frames env stamp y.name).symm⟩

/-- What gives back its first argument answers related arguments alike. -/
theorem Echo.answersAlike : Echo.world.AnswersAlike := by
  intro kind lent hmem later₁ later₂ _ method args₁ args₂ hargs
  obtain rfl := Echo.answer_of_mem hmem
  cases hargs with
  | nil => exact .error _
  | cons head rest => exact .value head

/-- A function that went through a host object, made once in a frame with a second binding and once
in frames of their own, one of which is hidden. -/
theorem echoed_function_agrees :
    let cx : Context := ⟨⟨#["", "echo", "give", "x", "y"]⟩,
      Registry.empty.register ⟨⟨1⟩, ⟨0⟩, "Echo"⟩, World.invoke⟩
    let t : Term := .prim none (.invoke ⟨2⟩)
      [.prim none (.capability ⟨1⟩) [], .lambda none ⟨0⟩ ⟨none, []⟩ (.var none ⟨3⟩)]
    let env₁ : Env := Env.empty.extendMany ⟨0⟩ [(⟨3⟩, .int 1), (⟨4⟩, .int 2)]
    let env₂ : Env := (Env.empty.extend ⟨0⟩ ⟨3⟩ (.int 0)).extend ⟨1⟩ ⟨3⟩ (.int 1)
    let m : Machine := .start .interpret true Echo.world
    Echo.world.AnswersAlike ∧
      (∀ y ∈ t.freeVariables, env₁.lookup y.name = env₂.lookup y.name) ∧
      SameEnd m.world.Parallel Value.Related (cx.eval 0 env₁ t m) (cx.eval 0 env₂ t m) ∧
      ∃ code m₁ m₂, cx.eval 0 env₁ t m = .ok (.closure code env₁) m₁ ∧
        cx.eval 0 env₂ t m = .ok (.closure code env₂) m₂ := by
  intro cx t env₁ env₂ m
  have hfree : ∀ y ∈ t.freeVariables, env₁.lookup y.name = env₂.lookup y.name := by
    intro y hy
    obtain rfl := List.mem_singleton.mp hy
    rfl
  have hsame := free_variables_suffice cx.names cx.registry 0 t m Echo.answersAlike
  exact ⟨Echo.answersAlike, hfree, hsame.2.1 env₁ env₂ hfree, _, _, _, rfl, rfl⟩

end CapLang
