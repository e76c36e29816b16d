import CapLang.Term.Basic

/-!
# Free variables

A reference is free if no binder around it introduces its name. The search walks a term in the
order of evaluation with the names bound so far, and keeps the first free reference of each name.
-/
namespace CapLang

/-- A name that is referred to but bound nowhere, with the place of the first reference. -/
structure FreeVariable where
  name : Name
  span : Option Span
deriving DecidableEq

/-- Adds a reference to those found, unless the name has one already. The last one found is the
first of the list. -/
def FreeVariable.note (x : Name) (span : Option Span) (found : List FreeVariable) :
    List FreeVariable :=
  if found.any (·.name == x) then found else ⟨x, span⟩ :: found

mutual

/-- Adds to `found` the free references of a term whose surroundings bind the names in `scope`. -/
def Term.findFree (scope : List Name) : Term → List FreeVariable → List FreeVariable
  | .literal .., found => found
  | .var span x, found => if scope.contains x then found else FreeVariable.note x span found
  | .lambda _ _ h body, found => body.findFree (h.params ++ scope) found
  | .app _ func args, found => Term.findFreeAll scope args (func.findFree scope found)
  | .letIn _ x value body, found => body.findFree (x :: scope) (value.findFree scope found)
  | .letRec _ _ functions body, found =>
    let scope := functions.map (·.1.binder) ++ scope
    body.findFree scope (Term.findFreeGroup scope functions found)
  | .ifThenElse _ c a b, found => b.findFree scope (a.findFree scope (c.findFree scope found))
  | .caseOf _ e alternatives, found =>
    Term.findFreeAlternatives scope alternatives (e.findFree scope found)
  | .record _ fields, found => Term.findFreeFields scope fields found
  | .field _ e _, found => e.findFree scope found
  | .variant _ _ e, found => e.findFree scope found
  | .prim _ _ args, found => Term.findFreeAll scope args found

/-- Adds the free references of terms, one after the other. -/
def Term.findFreeAll (scope : List Name) : List Term → List FreeVariable → List FreeVariable
  | [], found => found
  | t :: ts, found => Term.findFreeAll scope ts (t.findFree scope found)

/-- Adds the free references of function bodies; `scope` has the names of the whole group. -/
def Term.findFreeGroup (scope : List Name) :
    List (GroupHeader × Term) → List FreeVariable → List FreeVariable
  | [], found => found
  | (g, body) :: rest, found =>
    Term.findFreeGroup scope rest (body.findFree (g.header.params ++ scope) found)

/-- Adds the free references of alternatives, each in the scope of its own pattern. -/
def Term.findFreeAlternatives (scope : List Name) :
    List (Pattern × Term) → List FreeVariable → List FreeVariable
  | [], found => found
  | (p, body) :: rest, found =>
    Term.findFreeAlternatives scope rest (body.findFree (p.boundNames ++ scope) found)

/-- Adds the free references of field values, one after the other. -/
def Term.findFreeFields (scope : List Name) :
    List (Name × Term) → List FreeVariable → List FreeVariable
  | [], found => found
  | (_, t) :: rest, found => Term.findFreeFields scope rest (t.findFree scope found)

end

namespace Term

/-- The free variables of a term, each once, in the order of their first references. -/
def freeVariables (t : Term) : List FreeVariable := (t.findFree [] []).reverse

/-- Nothing is free in the term. -/
def isClosed (t : Term) : Bool := t.freeVariables.isEmpty

end Term
end CapLang
