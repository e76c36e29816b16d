import CapLang.Span
import CapLang.Diagnostic.Code

/-!
# Diagnostics

A report to a person: what went wrong, where, what else is worth knowing, and what might help.
-/
namespace CapLang

/-- How bad it is. -/
inductive Severity
  | error
  | warning
  | note
deriving DecidableEq

/-- The word that opens a report. -/
def Severity.text : Severity → String
  | error => "error"
  | warning => "warning"
  | note => "note"

namespace Diagnostic

/-- A place with a remark on it. -/
structure Label where
  span : Span
  message : String
  /-- The place of the fault itself, not of something related to it. -/
  isPrimary : Bool
deriving DecidableEq

/-- The mark in front of a label. -/
def Label.marker (l : Label) : String := if l.isPrimary then "-->" else "   "

end Diagnostic

/-- A report. Each list is in the order in which it is printed. -/
structure Diagnostic where
  code : Diagnostic.Code
  severity : Severity
  message : String
  labels : List Diagnostic.Label
  notes : List String
  suggestions : List String
deriving DecidableEq

namespace Diagnostic

/-- An empty report of an error. -/
def error (code : Code) : Diagnostic := ⟨code, .error, "", [], [], []⟩

/-- An empty report of a warning. -/
def warning (code : Code) : Diagnostic := ⟨code, .warning, "", [], [], []⟩

/-- Says what happened. -/
def withMessage (d : Diagnostic) (message : String) : Diagnostic := { d with message }

/-- Points at the place of the fault. -/
def withLabel (d : Diagnostic) (span : Span) (message : String) : Diagnostic :=
  { d with labels := d.labels ++ [⟨span, message, true⟩] }

/-- Points at a related place. -/
def withSecondaryLabel (d : Diagnostic) (span : Span) (message : String) : Diagnostic :=
  { d with labels := d.labels ++ [⟨span, message, false⟩] }

/-- Adds a note. -/
def withNote (d : Diagnostic) (note : String) : Diagnostic :=
  { d with notes := d.notes ++ [note] }

/-- Adds a suggestion. -/
def withSuggestion (d : Diagnostic) (suggestion : String) : Diagnostic :=
  { d with suggestions := d.suggestions ++ [suggestion] }

/-- The place of the fault: that of the first primary label. -/
def primarySpan (d : Diagnostic) : Option Span := (d.labels.find? (·.isPrimary)).map (·.span)

/-- The report is of an error. -/
def isError (d : Diagnostic) : Bool := d.severity == .error

/-- The report without line ends at the start of it or at its end: one line for the message, one
for each label with its span, one for each note and each suggestion. -/
def text (d : Diagnostic) : String :=
  d.severity.text ++ " [" ++ d.code.text ++ "]: " ++ d.message
    ++ String.join (d.labels.map fun l => "\n  " ++ l.marker ++ " " ++ l.span.text ++ ": " ++ l.message)
    ++ String.join (d.notes.map fun n => "\n  = note: " ++ n)
    ++ String.join (d.suggestions.map fun h => "\n  = help: " ++ h)

end Diagnostic
end CapLang
