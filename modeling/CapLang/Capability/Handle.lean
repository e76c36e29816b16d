import CapLang.Name

/-!
# Capability handles

A handle is how a program holds a host object: the name under which the host registered it, and
which object it is. Programs can pass handles around but never make one up.
-/
namespace CapLang

/-- Which host object; objects are numbered in the order in which the host made them. -/
structure ObjectId where
  index : Nat
deriving DecidableEq

/-- A registered host object as a program sees it. -/
structure Handle where
  /-- The name it was registered under. -/
  name : Name
  object : ObjectId
  /-- The word for the kind of object in reports. -/
  kind : String
deriving DecidableEq

namespace Handle

/-- Both handles lead to the same object, whatever their names. -/
def same (a b : Handle) : Bool := a.object == b.object

/-- A handle by its raw name and its kind. -/
def debug (h : Handle) : String := "Capability(" ++ h.name.debug ++ ": " ++ h.kind ++ ")"

end Handle
end CapLang
