import CapLang.Proofs.Places

/-!
# Environments by their batches

An environment is extended by one name or by a batch of names at a time.  Whatever the series of
such extensions, the batches in a row tell what became of it.  Each extension puts its bindings in
front of those that were there, so a look-up finds the last binding of its name in the row
(`Env.lookup_extendAll`).  And each one adds a frame, except that an empty batch adds none, so the
frames are the other batches, the last one innermost (`Env.names_extendAll`).
-/
namespace CapLang

/-- **The last binding of a name** in a list of bindings is to this value. -/
def LastBinding (bindings : List (Name × Value)) (x : Name) (v : Value) : Prop :=
  ∃ earlier later, bindings = earlier ++ (x, v) :: later ∧ x ∉ later.map (·.1)

namespace Value

variable {bindings : List (Name × Value)} {x : Name} {v : Value}

/-- The first binding from the end is the last one. -/
theorem field?_reverse_eq_some_iff :
    field? x bindings.reverse = some v ↔ LastBinding bindings x v := by
  constructor
  · intro h
    obtain ⟨⟨y, w⟩, hfind, rfl⟩ := Option.map_eq_some_iff.mp h
    obtain ⟨hy, later, earlier, hrow, hlater⟩ := List.find?_eq_some_iff_append.mp hfind
    obtain rfl : y = x := by simpa using hy
    refine ⟨earlier.reverse, later.reverse, ?_, ?_⟩
    · rw [← List.reverse_reverse bindings, hrow, List.reverse_append, List.reverse_cons,
        List.append_assoc, List.singleton_append]
    · intro hmem
      rw [List.map_reverse, List.mem_reverse] at hmem
      obtain ⟨b, hb, hname⟩ := List.mem_map.mp hmem
      simpa [hname] using hlater b hb
  · rintro ⟨earlier, later, rfl, hlater⟩
    rw [List.reverse_append, List.reverse_cons, field?_append, field?_append,
      field?_reverse_eq_none hlater]
    simp [field?]

end Value

namespace Env

/-! ## One extension -/

/-- One way to extend an environment: by a name, or by a batch of names in one frame. -/
inductive Extension
  | name (stamp : Stamp) (x : Name) (v : Value)
  | batch (stamp : Stamp) (bindings : List (Name × Value))

/-- The bindings that an extension adds, in order. -/
def Extension.bindings : Extension → List (Name × Value)
  | name _ x v => [(x, v)]
  | batch _ bindings => bindings

/-- The environment with one extension. -/
def extendBy (env : Env) : Extension → Env
  | .name stamp x v => env.extend stamp x v
  | .batch stamp bindings => env.extendMany stamp bindings

theorem lookup_extendBy (env : Env) (e : Extension) (x : Name) :
    (env.extendBy e).lookup x = (Value.field? x e.bindings.reverse).or (env.lookup x) := by
  rcases e with ⟨stamp, y, v⟩ | ⟨stamp, bindings⟩
  · exact lookup_extendMany env stamp [(y, v)] x
  · exact lookup_extendMany env stamp bindings x

theorem names_extendBy (env : Env) (e : Extension) :
    (env.extendBy e).names = framed [e.bindings.map (·.1)] ++ env.names := by
  rcases e with ⟨stamp, y, v⟩ | ⟨stamp, bindings⟩
  · exact names_extendMany env stamp [(y, v)]
  · exact names_extendMany env stamp bindings

/-! ## Series of extensions -/

/-- The environment with some extensions, one after the other. -/
def extendAll (env : Env) (steps : List Extension) : Env := steps.foldl extendBy env

/-- **A look-up sees the bindings of all extensions in a row**, from the end. -/
theorem lookup_extendAll (steps : List Extension) (env : Env) (x : Name) :
    (env.extendAll steps).lookup x =
      (Value.field? x (steps.flatMap Extension.bindings).reverse).or (env.lookup x) := by
  induction steps generalizing env with
  | nil => rfl
  | cons e steps ih =>
    show ((env.extendBy e).extendAll steps).lookup x = _
    rw [ih, lookup_extendBy, List.flatMap_cons, List.reverse_append, Value.field?_append,
      Option.or_assoc]

/-- **The frames are the batches that are not empty**, from the end. -/
theorem names_extendAll (steps : List Extension) (env : Env) :
    (env.extendAll steps).names =
      framed (steps.map fun e => e.bindings.map (·.1)).reverse ++ env.names := by
  induction steps generalizing env with
  | nil => rfl
  | cons e steps ih =>
    show ((env.extendBy e).extendAll steps).names = _
    rw [ih, names_extendBy, List.map_cons, List.reverse_cons, framed_append, List.append_assoc]

/-- One frame after the other, each with one binding, serves for look-ups as one frame with all the
bindings. -/
theorem lookup_foldl_extend (frames : List (Stamp × Name × Value)) (env : Env) (stamp : Stamp)
    (x : Name) : (frames.foldl (fun env f => env.extend f.1 f.2.1 f.2.2) env).lookup x =
      (env.extendMany stamp (frames.map (·.2))).lookup x := by
  have hsteps : frames.foldl (fun env f => env.extend f.1 f.2.1 f.2.2) env =
      env.extendAll (frames.map fun f => .name f.1 f.2.1 f.2.2) := by
    rw [extendAll, List.foldl_map]
    rfl
  rw [hsteps, lookup_extendAll, lookup_extendMany, List.flatMap_map, List.map_eq_flatMap]
  rfl

/-! ## What an environment shows of its frames -/

theorem isEmpty_iff (env : Env) : env.isEmpty ↔ env.depth = 0 := by
  cases env <;> simp [isEmpty, depth]

theorem localNames_eq (env : Env) : env.localNames = env.names.head?.getD [] := by
  cases env <;> rfl

variable (steps : List Extension)

/-- The batches of a series of extensions that are not empty, in order. -/
def nonemptyBatches : List (List (Name × Value)) :=
  (steps.map Extension.bindings).filter fun batch => !batch.isEmpty

theorem names_empty_extendAll :
    (empty.extendAll steps).names = ((nonemptyBatches steps).map (List.map (·.1))).reverse := by
  have hnames : (steps.map fun e => e.bindings.map (·.1)) =
      (steps.map Extension.bindings).map (List.map (·.1)) := by
    rw [List.map_map]
    rfl
  rw [names_extendAll, hnames, framed, List.filter_reverse, List.filter_map, nonemptyBatches]
  simp only [Function.comp_def, List.isEmpty_map]
  exact List.append_nil _

/-- **An environment is a shadowing map.**  However it was built, a look-up finds the last binding
of the name in all batches in a row, and none if there is no such binding; the other way to ask for
a name agrees with this.  To extend any environment by a batch gives the look-ups that come of its
bindings one by one.  There is a frame for each batch that is not empty, and the local names are
those of the last one, with repetitions. -/
theorem shadowing_map (x : Name) :
    let env := empty.extendAll steps
    let row := steps.flatMap Extension.bindings
    (∀ v, env.lookup x = some v ↔ LastBinding row x v) ∧
    (env.lookup x = none ↔ ∀ v, (x, v) ∉ row) ∧
    (env.contains x ↔ (env.lookup x).isSome) ∧
    (∀ (base : Env) (stamp : Stamp) (frames : List (Stamp × Name × Value)),
      (base.extendMany stamp (frames.map (·.2))).lookup x =
        (frames.foldl (fun env f => env.extend f.1 f.2.1 f.2.2) base).lookup x) ∧
    env.depth = (nonemptyBatches steps).length ∧
    (env.isEmpty ↔ env.depth = 0) ∧
    env.localNames = ((nonemptyBatches steps).getLast?.getD []).map (·.1) := by
  intro env row
  have hlookup : env.lookup x = Value.field? x row.reverse := by
    rw [lookup_extendAll]
    exact Option.or_none
  refine ⟨?last, ?unbound, contains_iff env x, ?batch, ?depth, isEmpty_iff env, ?localNames⟩
  case last =>
    intro v
    rw [hlookup, Value.field?_reverse_eq_some_iff]
  case unbound =>
    rw [hlookup, ← Option.not_isSome_iff_eq_none, Value.field?_isSome]
    simp
  case batch =>
    intro base stamp frames
    exact (lookup_foldl_extend frames base stamp x).symm
  case depth =>
    rw [depth_eq, names_empty_extendAll, List.length_reverse, List.length_map]
  case localNames =>
    rw [localNames_eq, names_empty_extendAll, List.head?_reverse, List.getLast?_map]
    cases (nonemptyBatches steps).getLast? <;> rfl

end Env
end CapLang
