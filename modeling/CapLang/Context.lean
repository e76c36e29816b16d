import CapLang.NameTable
import CapLang.Capability.Registry
import CapLang.Capability.World

/-!
# Contexts

What evaluation reads and never changes.
-/
namespace CapLang

/-- The surroundings that a host gives to evaluation. -/
structure Context where
  /-- The texts of names, for reports and for the methods of host objects. -/
  names : NameTable
  /-- What programs can fetch. -/
  registry : Registry
  /-- How a call of a method reaches its object. A host that lends an object to several runs at
  once can say here what the others do in the meantime. -/
  invoke : World → Handle → String → List Value → Except Fault Value × World := World.invoke

end CapLang
