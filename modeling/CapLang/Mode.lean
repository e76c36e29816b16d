/-!
# Modes

How deep calls may nest in one run. A limit turns runaway recursion into a fault.
-/
namespace CapLang

/-- Bounds the nesting of calls. -/
inductive Mode
  /-- The standard limit. -/
  | interpret
  /-- A limit that the host chooses. -/
  | bounded (limit : Nat)
  | unbounded
deriving DecidableEq

namespace Mode

/-- The limit of the standard mode. -/
def standardLimit : Nat := 10000

/-- The mode of hosts that choose none. -/
def standard : Mode := interpret

/-- The greatest number of nested calls, if there is one. -/
def limit? : Mode → Option Nat
  | interpret => some standardLimit
  | bounded limit => some limit
  | unbounded => none

end Mode
end CapLang
