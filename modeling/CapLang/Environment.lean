import CapLang.Value.Basic

/-!
# Environments

Looking names up and binding them. The last binding of a name wins, within a frame as well as
between frames.
-/
namespace CapLang.Env

/-- What a name stands for, in the innermost frame that binds it. -/
def lookup (x : Name) : Env → Option Value
  | empty => none
  | frame _ bindings outer =>
    match bindings.reverse.find? (·.1 == x) with
    | some b => some b.2
    | none => outer.lookup x

/-- Some frame binds the name. -/
def contains (x : Name) : Env → Bool
  | empty => false
  | frame _ bindings outer => bindings.any (·.1 == x) || outer.contains x

/-- Binds one name in a frame of its own. -/
def extend (env : Env) (stamp : Stamp) (x : Name) (v : Value) : Env :=
  frame stamp [(x, v)] env

/-- Binds names in one frame. Without bindings nothing changes. -/
def extendMany (env : Env) (stamp : Stamp) : List (Name × Value) → Env
  | [] => env
  | b :: bs => frame stamp (b :: bs) env

/-- Binds the functions of a recursive group in one frame. Each of them remembers the environment
outside that frame. -/
def bindGroup (env : Env) (stamp : Stamp) (id : CodeId)
    (functions : List (GroupHeader × Term)) : Env :=
  env.extendMany stamp (functions.mapIdx fun i f =>
    (f.1.binder, .closure (.member id functions i) env))

/-- Number of frames. -/
def depth : Env → Nat
  | empty => 0
  | frame _ _ outer => outer.depth + 1

/-- Nothing is bound. -/
def isEmpty : Env → Bool
  | empty => true
  | frame .. => false

/-- The names that the innermost frame binds, in order. -/
def localNames : Env → List Name
  | empty => []
  | frame _ bindings _ => bindings.map (·.1)

/-- Both are the same chain of frames. -/
def same : Env → Env → Bool
  | empty, empty => true
  | frame s _ _, frame t _ _ => s == t
  | _, _ => false

/-- The names of each frame, the innermost frame first. -/
def names : Env → List (List Name)
  | empty => []
  | frame _ bindings outer => bindings.map (·.1) :: outer.names

/-- The environment in which the body of a function runs, before its parameters are bound. The
stamp is for the frame of a recursive group. -/
def ofCode (env : Env) (stamp : Stamp) (code : Code) : Env :=
  match code with
  | .lambda .. => env
  | .member id functions _ => env.bindGroup stamp id functions

end CapLang.Env
