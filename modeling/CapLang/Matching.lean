import CapLang.Value.Basic

/-!
# Matching values against patterns

A match goes through a pattern from left to right and adds a binding for each binder it passes. If
it fails, the bindings it has added so far are of no use, and callers drop them.
-/
namespace CapLang

/-- Whether a value is the one that a literal spells. -/
def Literal.fits : Literal → Value → Bool
  | .int n, .int m => n == m
  | .bool a, .bool b => a == b
  | .str s, .str t => s == t
  | .unit, .unit => true
  | _, _ => false

mutual

/-- Whether a value fits a pattern, with the bindings made on the way after those given. -/
def Pattern.matchOnto : Pattern → Value → List (Name × Value) → Bool × List (Name × Value)
  | .wildcard, _, bs => (true, bs)
  | .bind x, v, bs => (true, bs ++ [(x, v)])
  | .literal l, v, bs => (l.fits v, bs)
  | .variant t p, .variant u v, bs => if t = u then p.matchOnto v bs else (false, bs)
  | .record ps, .record _ fields, bs => Pattern.matchFieldsOnto fields ps bs
  | .record ps, .unit, bs => (ps.isEmpty, bs)
  | _, _, bs => (false, bs)

/-- Whether the fields of a record fit the patterns asked of some of them, one after the other. -/
def Pattern.matchFieldsOnto (fields : List (Name × Value)) :
    List (Name × Pattern) → List (Name × Value) → Bool × List (Name × Value)
  | [], bs => (true, bs)
  | (x, p) :: rest, bs =>
    match Value.field? x fields with
    | none => (false, bs)
    | some v =>
      match p.matchOnto v bs with
      | (true, bs) => Pattern.matchFieldsOnto fields rest bs
      | (false, bs) => (false, bs)

end

/-- The bindings of a value that fits, in the order of the pattern. -/
def Pattern.match? (p : Pattern) (v : Value) : Option (List (Name × Value)) :=
  match p.matchOnto v [] with
  | (true, bs) => some bs
  | (false, _) => none

end CapLang
