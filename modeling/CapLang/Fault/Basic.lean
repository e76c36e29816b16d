import CapLang.Term.Basic
import CapLang.Fault.Cause

/-!
# Faults

A fault ends evaluation. It says what went wrong, at which term, with which calls under way, and
carries notes. The term that notices the fault records itself as its site; a fault that has a site
keeps it on its way out.
-/
namespace CapLang

/-- The term that noticed a fault. -/
structure Site where
  span : Option Span
  /-- The word for the form of the term. -/
  form : String
deriving DecidableEq

namespace Site

/-- A term as the site of a fault. -/
def ofTerm (t : Term) : Site := ⟨t.span, t.form⟩

/-- The form of the term, and its span if it has one. -/
def text (s : Site) : String :=
  match s.span with
  | some span => s.form ++ " at " ++ span.text
  | none => s.form

end Site

/-- A remark on a fault, with the place it speaks of if there is one. -/
structure Note where
  message : String
  span : Option Span
deriving DecidableEq

/-- One call of a backtrace. -/
structure BacktraceFrame where
  /-- The function that was called. -/
  name : String
  /-- The term that called it. -/
  span : Option Span
deriving DecidableEq

/-- The calls that were under way, the most recent one first. -/
structure Backtrace where
  frames : List BacktraceFrame
deriving DecidableEq

namespace Backtrace

/-- The line for the call at position `i`. -/
def line (i : Nat) (f : BacktraceFrame) : String :=
  "\n  " ++ toString i ++ ": " ++ f.name ++ match f.span with
    | some span => " at " ++ span.text
    | none => ""

/-- A heading and one line for each call, counted from 0; nothing at all if there is none. -/
def text (b : Backtrace) : String :=
  if b.frames.isEmpty then "" else "call stack:" ++ String.join (b.frames.mapIdx line)

end Backtrace

/-- A fault. -/
structure Fault where
  cause : Cause
  /-- What is shown; the words of the cause, unless a host changed them. -/
  message : String
  site : Option Site
  backtrace : Option Backtrace
  notes : List Note
deriving DecidableEq

namespace Fault

/-- A fault as it is raised: nothing but its cause. -/
def ofCause (cause : Cause) : Fault := ⟨cause, cause.message, none, none, []⟩

/-- Records a site, unless one is recorded. -/
def withSite (f : Fault) (site : Site) : Fault := { f with site := f.site.or (some site) }

/-- Records a term as the site, unless a site is recorded. -/
def atTerm (f : Fault) (t : Term) : Fault := f.withSite (.ofTerm t)

/-- Where the fault was noticed. -/
def span (f : Fault) : Option Span := f.site.bind (·.span)

/-- Sets the backtrace. -/
def withBacktrace (f : Fault) (b : Backtrace) : Fault := { f with backtrace := some b }

/-- Adds a note after those there are. -/
def withNote (f : Fault) (n : Note) : Fault := { f with notes := f.notes ++ [n] }

/-- The message, and the span if there is one. -/
def text (f : Fault) : String :=
  match f.span with
  | some span => f.message ++ " at " ++ span.text
  | none => f.message

end Fault
end CapLang
