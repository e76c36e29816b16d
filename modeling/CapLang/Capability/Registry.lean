import CapLang.Capability.Handle
import CapLang.Text.Quoted

/-!
# Capability registries

What a host lends to programs: at most one object under each name.
-/
namespace CapLang

/-- Handles with distinct names, in the order in which they were registered. -/
structure Registry where
  handles : List Handle

namespace Registry

/-- Nothing is registered. -/
def empty : Registry := ⟨[]⟩

/-- Registers a handle under its name, in place of an earlier one. -/
def register (r : Registry) (h : Handle) : Registry :=
  ⟨r.handles.filter (·.name != h.name) ++ [h]⟩

/-- What is registered under a name. -/
def find? (r : Registry) (x : Name) : Option Handle := r.handles.find? (·.name == x)

/-- Something is registered under the name. -/
def contains (r : Registry) (x : Name) : Bool := (r.find? x).isSome

/-- Number of names in use. -/
def size (r : Registry) : Nat := r.handles.length

/-- Nothing is registered. -/
def isEmpty (r : Registry) : Bool := r.handles.isEmpty

/-- The kind of object under each name. -/
def debug (r : Registry) : String :=
  "\x7b" ++ String.intercalate ", " (r.handles.map fun h => h.name.debug ++ ": " ++ quoted h.kind)
    ++ "\x7d"

end Registry
end CapLang
