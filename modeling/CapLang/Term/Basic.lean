import CapLang.Span
import CapLang.Pattern
import CapLang.Operator

/-!
# Terms

Programs as trees. Every node may carry the span of text that it was read from. Nodes that make
functions also carry a code number, which stands for the piece of code itself: two functions are
the same only if their numbers are, however alike their bodies look.
-/
namespace CapLang

/-- Stands for a piece of function code. Whoever builds a term gives each lambda and each group of
recursive functions a number of its own. -/
structure CodeId where
  index : Nat
deriving DecidableEq

/-- A function without its body. -/
structure Header where
  /-- The function's own name, for reports. -/
  name : Option Name
  params : List Name
deriving DecidableEq

/-- A function of a recursive group without its body. -/
structure GroupHeader where
  /-- The name that the group binds to the function. -/
  binder : Name
  header : Header
deriving DecidableEq

/-- A program, or a part of one. -/
inductive Term
  | literal (span : Option Span) (l : Literal)
  | var (span : Option Span) (x : Name)
  /-- A function; its value remembers the environment. -/
  | lambda (span : Option Span) (id : CodeId) (header : Header) (body : Term)
  /-- A function applied to arguments. -/
  | app (span : Option Span) (func : Term) (args : List Term)
  /-- Binds one name to a value in a body. -/
  | letIn (span : Option Span) (x : Name) (value body : Term)
  /-- Binds functions that may call each other, in their bodies and in a body. -/
  | letRec (span : Option Span) (id : CodeId) (functions : List (GroupHeader × Term))
      (body : Term)
  | ifThenElse (span : Option Span) (cond thenBranch elseBranch : Term)
  /-- Evaluates the first alternative whose pattern fits. -/
  | caseOf (span : Option Span) (scrutinee : Term) (alternatives : List (Pattern × Term))
  | record (span : Option Span) (fields : List (Name × Term))
  | field (span : Option Span) (base : Term) (x : Name)
  | variant (span : Option Span) (tag : Name) (payload : Term)
  | prim (span : Option Span) (op : Operator) (args : List Term)

namespace Term

/-- Where the term was read from. -/
def span : Term → Option Span
  | literal s .. | var s .. | lambda s .. | app s .. | letIn s .. | letRec s .. | ifThenElse s ..
  | caseOf s .. | record s .. | field s .. | variant s .. | prim s .. => s

/-- The same term, read from somewhere else. -/
def withSpan (s : Option Span) : Term → Term
  | literal _ l => literal s l
  | var _ x => var s x
  | lambda _ n h b => lambda s n h b
  | app _ f as => app s f as
  | letIn _ x e b => letIn s x e b
  | letRec _ n fs b => letRec s n fs b
  | ifThenElse _ c a b => ifThenElse s c a b
  | caseOf _ e as => caseOf s e as
  | record _ fs => record s fs
  | field _ e x => field s e x
  | variant _ t e => variant s t e
  | prim _ o as => prim s o as

/-- The word for the form of the term in reports. -/
def form : Term → String
  | literal .. => "Literal"
  | var .. => "VariableReference"
  | lambda .. => "Abstraction"
  | app .. => "Application"
  | letIn .. => "Let"
  | letRec .. => "LetRec"
  | ifThenElse .. => "Conditional"
  | caseOf .. => "Case"
  | record .. => "Record"
  | field .. => "FieldAccess"
  | variant .. => "Variant"
  | prim .. => "PrimitiveOperation"

/-- The record without fields, as a term that was read from nowhere. -/
def unit : Term := literal none .unit

end Term

mutual

/-- Whether two terms are written alike, spans included. Code numbers do not count. -/
def Term.same : Term → Term → Bool
  | .literal s l, .literal s' l' => s == s' && l == l'
  | .var s x, .var s' x' => s == s' && x == x'
  | .lambda s _ h b, .lambda s' _ h' b' => s == s' && h == h' && b.same b'
  | .app s f as, .app s' f' as' => s == s' && f.same f' && Term.sameAll as as'
  | .letIn s x e b, .letIn s' x' e' b' => s == s' && x == x' && e.same e' && b.same b'
  | .letRec s _ fs b, .letRec s' _ fs' b' => s == s' && Term.sameGroup fs fs' && b.same b'
  | .ifThenElse s c a b, .ifThenElse s' c' a' b' =>
    s == s' && c.same c' && a.same a' && b.same b'
  | .caseOf s e as, .caseOf s' e' as' => s == s' && e.same e' && Term.sameAlternatives as as'
  | .record s fs, .record s' fs' => s == s' && Term.sameFields fs fs'
  | .field s e x, .field s' e' x' => s == s' && x == x' && e.same e'
  | .variant s t e, .variant s' t' e' => s == s' && t == t' && e.same e'
  | .prim s o as, .prim s' o' as' => s == s' && o == o' && Term.sameAll as as'
  | _, _ => false

/-- Whether two lists of terms are written alike. -/
def Term.sameAll : List Term → List Term → Bool
  | [], [] => true
  | t :: ts, u :: us => t.same u && Term.sameAll ts us
  | _, _ => false

/-- Whether two groups of functions are written alike. -/
def Term.sameGroup : List (GroupHeader × Term) → List (GroupHeader × Term) → Bool
  | [], [] => true
  | (h, t) :: ts, (k, u) :: us => h == k && t.same u && Term.sameGroup ts us
  | _, _ => false

/-- Whether two lists of alternatives are written alike. -/
def Term.sameAlternatives : List (Pattern × Term) → List (Pattern × Term) → Bool
  | [], [] => true
  | (p, t) :: ts, (q, u) :: us => p.same q && t.same u && Term.sameAlternatives ts us
  | _, _ => false

/-- Whether two lists of fields are written alike, order included. -/
def Term.sameFields : List (Name × Term) → List (Name × Term) → Bool
  | [], [] => true
  | (x, t) :: ts, (y, u) :: us => x == y && t.same u && Term.sameFields ts us
  | _, _ => false

end
end CapLang
