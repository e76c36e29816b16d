import CapLang.Proofs.Parts

/-!
# Places in a program

The same term may stand in a program more than once, so an occurrence is given by its place, the way
that leads to it from the whole program.  `Term.at?` finds the term at a place and the name lists of
the binders around it.  An environment whose frames carry just these lists finds each name at an
address that depends on the lists alone (`Env.lookup_eq`).
-/
namespace CapLang

/-- Which part to go to, from the whole program inwards. -/
abbrev Place := List Nat

/-! ## Binders around a place -/

/-- The names that a function introduces around its body: its parameters, and outside them for a
member of a group those of the group. -/
def Code.binders (code : Code) : List (List Name) :=
  code.params :: match code with
    | .lambda .. => []
    | .member _ functions _ => [functions.map (·.1.binder)]

namespace Term

/-- **A part of a term**, and the name lists of the binders that are passed on the way to it, the
innermost first. -/
def part? : Term → Nat → Option (List (List Name) × Term)
  | .lambda _ _ h body, 0 => some ([h.params], body)
  | .app _ func _, 0 => some ([], func)
  | .app _ _ args, i + 1 => args[i]?.map fun a => ([], a)
  | .letIn _ _ value _, 0 => some ([], value)
  | .letIn _ x _ body, 1 => some ([[x]], body)
  | .letRec _ _ functions body, 0 => some ([functions.map (·.1.binder)], body)
  | .letRec _ _ functions _, i + 1 =>
    functions[i]?.map fun f => ([f.1.header.params, functions.map (·.1.binder)], f.2)
  | .ifThenElse _ c _ _, 0 => some ([], c)
  | .ifThenElse _ _ a _, 1 => some ([], a)
  | .ifThenElse _ _ _ b, 2 => some ([], b)
  | .caseOf _ e _, 0 => some ([], e)
  | .caseOf _ _ alternatives, i + 1 => alternatives[i]?.map fun a => ([a.1.boundNames], a.2)
  | .record _ fields, i => fields[i]?.map fun f => ([], f.2)
  | .field _ e _, 0 => some ([], e)
  | .variant _ _ e, 0 => some ([], e)
  | .prim _ _ args, i => args[i]?.map fun a => ([], a)
  | _, _ => none

/-- **The term at a place**, and the name lists of all binders around it, the innermost first. -/
def at? : Term → Place → Option (List (List Name) × Term)
  | t, [] => some ([], t)
  | t, i :: place => do
    let (outer, u) ← t.part? i
    let (inner, v) ← u.at? place
    return (inner ++ outer, v)

/-- The function that the term makes of this part. -/
def function? : Term → Nat → Option Code
  | .lambda _ id h body, 0 => some (.lambda id h body)
  | .letRec _ id functions _, i + 1 => functions[i]?.map fun _ => .member id functions i
  | _, _ => none

/-- A step further inwards goes to a part of the term, past the binders on the way to it. -/
theorem at?_last {t u v : Term} {place : Place} {scope bound : List (List Name)} {i : Nat}
    (h : t.at? place = some (scope, u)) (hi : u.part? i = some (bound, v)) :
    t.at? (place ++ [i]) = some (bound ++ scope, v) := by
  induction place generalizing t scope with
  | nil =>
    cases h
    rw [List.nil_append, at?, hi]
    simp [at?]
  | cons j place ih =>
    rw [at?] at h
    obtain ⟨⟨outer, w⟩, hj, hrest⟩ := Option.bind_eq_some_iff.mp h
    obtain ⟨⟨inner, u'⟩, hu, hpure⟩ := Option.bind_eq_some_iff.mp hrest
    cases hpure
    rw [List.cons_append, at?, hj]
    show (do let (inner, v) ← w.at? (place ++ [i]); return (inner ++ outer, v)) = _
    rw [ih hu]
    simp

/-- The part that a function is made of is its body, inside the binders of the function. -/
theorem part?_of_function? {t : Term} {i : Nat} {code : Code} (h : t.function? i = some code) :
    t.part? i = some (code.binders, code.body) := by
  unfold function? at h
  split at h
  · cases h
    rfl
  · obtain ⟨f, hf, rfl⟩ := Option.map_eq_some_iff.mp h
    simp [part?, Code.binders, Code.params, Code.header, Code.body, hf]
  · cases h

end Term

/-! ## Frames for binders -/

/-- **The frames for some binders**: each has one, except those that bind no name. -/
def framed (binders : List (List Name)) : List (List Name) :=
  binders.filter fun names => !names.isEmpty

theorem framed_append (bs cs : List (List Name)) : framed (bs ++ cs) = framed bs ++ framed cs :=
  List.filter_append ..

namespace Env

theorem depth_eq (env : Env) : env.depth = env.names.length := by
  match env with
  | empty => rfl
  | frame stamp bindings outer => rw [depth, names, List.length_cons, depth_eq outer]

theorem names_extendMany (env : Env) (stamp : Stamp) (bindings : List (Name × Value)) :
    (env.extendMany stamp bindings).names = framed [bindings.map (·.1)] ++ env.names := by
  cases bindings <;> rfl

theorem names_bindGroup (env : Env) (stamp : Stamp) (id : CodeId)
    (functions : List (GroupHeader × Term)) :
    (env.bindGroup stamp id functions).names =
      framed [functions.map (·.1.binder)] ++ env.names := by
  rw [bindGroup, names_extendMany, names_group]

/-- The body of a function runs inside frames for the binders of the function. -/
theorem names_ofCode (env : Env) (stamp stamp' : Stamp) {code : Code} {args : List Value}
    (h : code.arity = args.length) :
    ((env.ofCode stamp code).extendMany stamp' (code.params.zip args)).names =
      framed code.binders ++ env.names := by
  have hparams : (code.params.zip args).map (·.1) = code.params :=
    List.map_fst_zip (Nat.le_of_eq h)
  rw [names_extendMany, hparams]
  cases code with
  | lambda id header body => rfl
  | member id functions i =>
    rw [ofCode, names_bindGroup, ← List.append_assoc, ← framed_append]
    rfl

end Env

/-! ## Addresses -/

/-- Where a name is found: how many frames out, and how many bindings from the last of the frame. -/
structure Address where
  frame : Nat
  binding : Nat
deriving DecidableEq

/-- **The address of a name** where frames carry these names: in the innermost frame that has it,
the last time that it occurs. -/
def address? (x : Name) : List (List Name) → Option Address
  | [] => none
  | names :: outer =>
    match names.reverse.findIdx? (· == x) with
    | some i => some ⟨0, i⟩
    | none => (address? x outer).map fun a => ⟨a.frame + 1, a.binding⟩

namespace Env

/-- The value that an environment has at an address. -/
def value? : Env → Address → Option Value
  | empty, _ => none
  | frame _ bindings _, ⟨0, i⟩ => bindings.reverse[i]?.map (·.2)
  | frame _ _ outer, ⟨k + 1, i⟩ => outer.value? ⟨k, i⟩

/-- **The names of the frames decide where a name is found.** -/
theorem lookup_eq (env : Env) (x : Name) :
    env.lookup x = (address? x env.names).bind env.value? := by
  match env with
  | empty => rfl
  | frame stamp bindings outer =>
    have hfirst : (bindings.map (·.1)).reverse.findIdx? (· == x) =
        bindings.reverse.findIdx? (·.1 == x) := by
      rw [← List.map_reverse, List.findIdx?_map]
      rfl
    rw [lookup, names, address?, hfirst, List.find?_eq_bind_findIdx?_getElem?]
    cases hi : bindings.reverse.findIdx? (·.1 == x) with
    | some i =>
      have hlt := (List.findIdx?_eq_some_iff_getElem.mp hi).1
      simp [value?, List.getElem?_eq_getElem hlt]
    | none =>
      show outer.lookup x = _
      rw [lookup_eq outer x, Option.bind_map]
      rfl

end Env
end CapLang
