import CapLang.Diagnostic.Basic
import CapLang.Source.Lines

/-!
# Rendered diagnostics

A diagnostic for a terminal: every line ends with a line end, places are given as path, line and
column when the source is at hand, and a few words may be coloured.
-/
namespace CapLang

/-- When words are coloured. -/
inductive ColorMode
  /-- Only on a terminal. -/
  | auto
  | always
  | never
deriving DecidableEq

/-- Whether to colour words. -/
def ColorMode.colors (onTerminal : Bool) : ColorMode → Bool
  | auto => onTerminal
  | always => true
  | never => false

/-- How a word stands out. -/
inductive Style
  | error
  | warning
  | note
  | help
  | bold
deriving DecidableEq

namespace Style

/-- The control sequence that starts the style. -/
def start : Style → String
  | error => "\x1b[1;31m"
  | warning => "\x1b[1;33m"
  | note => "\x1b[1;36m"
  | help => "\x1b[1;32m"
  | bold => "\x1b[1m"

/-- The control sequence that ends every style. -/
def reset : String := "\x1b[0m"

/-- A text in the style, if words are coloured at all. -/
def paint (colors : Bool) (style : Style) (s : String) : String :=
  if colors then style.start ++ s ++ reset else s

end Style

/-- The style of the word for a severity. -/
def Severity.style : Severity → Style
  | error => .error
  | warning => .warning
  | note => .note

/-- The text that spans point into. -/
structure Source where
  path : String
  text : String

/-- A source together with the starts of its lines. -/
structure IndexedSource extends Source where
  lines : LineTable

/-- Finds the lines of a source. -/
def Source.index (s : Source) : IndexedSource := ⟨s, LineTable.ofText s.text⟩

/-- The start of a span by path, line and column. -/
def IndexedSource.locate (s : IndexedSource) (span : Span) : String :=
  let p := s.lines.spanStart s.text span
  s.path ++ ":" ++ toString p.line ++ ":" ++ toString p.column

namespace Diagnostic

/-- Where a label points: a place in the source, or the span itself when there is none. -/
def location (source : Option IndexedSource) (span : Span) : String :=
  match source with
  | some s => s.locate span
  | none => span.text

/-- The lines of a diagnostic. -/
def emit (colors : Bool) (source : Option IndexedSource) (d : Diagnostic) : String :=
  d.severity.style.paint colors d.severity.text ++ Style.bold.paint colors ("[" ++ d.code.text ++ "]")
    ++ ": " ++ d.message ++ "\n"
    ++ String.join (d.labels.map fun l =>
        "  " ++ l.marker ++ " " ++ location source l.span ++ ": " ++ l.message ++ "\n")
    ++ String.join (d.notes.map fun n => "  = " ++ Style.bold.paint colors "note" ++ ": " ++ n ++ "\n")
    ++ String.join (d.suggestions.map fun h =>
        "  = " ++ Style.help.paint colors "help" ++ ": " ++ h ++ "\n")

/-- Several diagnostics, one after the other. -/
def emitAll (mode : ColorMode) (onTerminal : Bool) (source : Option Source)
    (ds : List Diagnostic) : String :=
  let source := source.map Source.index
  String.join (ds.map (emit (mode.colors onTerminal) source))

/-- A diagnostic without colours. -/
def render (source : Option Source) (d : Diagnostic) : String :=
  d.emit false (source.map Source.index)

end Diagnostic
end CapLang
