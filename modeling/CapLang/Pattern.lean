import CapLang.Name
import CapLang.Literal

/-!
# Patterns

What an alternative of a case asks of a value. `boundNames` lists the names it binds, from left to
right; a name that occurs twice is listed twice.
-/
namespace CapLang

/-- A shape that values are tested against. -/
inductive Pattern
  /-- Any value. -/
  | wildcard
  /-- Any value, which gets the name. -/
  | bind (x : Name)
  /-- The value of the literal. -/
  | literal (l : Literal)
  /-- A variant with this tag and a fitting payload. -/
  | variant (tag : Name) (payload : Pattern)
  /-- A record that has at least these fields, each with a fitting value. -/
  | record (fields : List (Name × Pattern))

mutual

/-- The names that the pattern binds, from left to right. -/
def Pattern.boundNames : Pattern → List Name
  | .wildcard | .literal _ => []
  | .bind x => [x]
  | .variant _ p => p.boundNames
  | .record fields => Pattern.boundNamesOfFields fields

/-- The names that the patterns of some fields bind, from left to right. -/
def Pattern.boundNamesOfFields : List (Name × Pattern) → List Name
  | [] => []
  | (_, p) :: rest => p.boundNames ++ Pattern.boundNamesOfFields rest

end

mutual

/-- Whether two patterns are written alike. -/
def Pattern.same : Pattern → Pattern → Bool
  | .wildcard, .wildcard => true
  | .bind x, .bind y => x == y
  | .literal l, .literal k => l == k
  | .variant t p, .variant u q => t == u && p.same q
  | .record fs, .record gs => Pattern.sameFields fs gs
  | _, _ => false

/-- Whether two lists of fields are written alike, order included. -/
def Pattern.sameFields : List (Name × Pattern) → List (Name × Pattern) → Bool
  | [], [] => true
  | (x, p) :: fs, (y, q) :: gs => x == y && p.same q && Pattern.sameFields fs gs
  | _, _ => false

end
end CapLang
