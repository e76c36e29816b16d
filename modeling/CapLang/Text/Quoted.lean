import CapLang.Text.Printable

/-!
# Quoted text

A text between double quotes on one line. Quotes, backslashes, tabs, line ends and the null
character have two-character escapes; any other character that is not printable is written by
its code point. All else stands for itself.
-/
namespace CapLang.Quoted

/-- One character between the quotes. -/
def escape (c : Char) : List Char :=
  if c = '"' then ['\\', '"']
  else if c = '\\' then ['\\', '\\']
  else if c = '\t' then ['\\', 't']
  else if c = '\r' then ['\\', 'r']
  else if c = '\n' then ['\\', 'n']
  else if c = '\x00' then ['\\', '0']
  else if isPrintable c then [c]
  else ['\\', 'u', '\x7b'] ++ Nat.toDigits 16 c.toNat ++ ['\x7d']

/-- The characters of a text, each escaped, between two quotes. -/
def encode (s : List Char) : List Char := '"' :: (s.flatMap escape ++ ['"'])

end CapLang.Quoted

namespace CapLang

/-- A text in its quoted form. -/
def quoted (s : String) : String := String.ofList (Quoted.encode s.toList)

/-- Letters of any script stand for themselves; a mark that joins to the letter before it does not,
and neither does a space of no width. -/
example : quoted "é日" = "\"é日\"" := by decide
example : quoted "e\u0301\u200b" = "\"e\\u\x7b301\x7d\\u\x7b200b\x7d\"" := by decide
example : quoted "a\"\\\t\x00" = "\"a\\\"\\\\\\t\\0\"" := by decide

end CapLang
