import FormLower.Text.Unprintable
import FormLower.Text.Extending

/-! # Quoted text

How a text is written between double quotes: the quote and the backslash are escaped, a few control
characters have an escape of one letter, and characters that could not be seen in their place are
written by their code point. -/

namespace FormLower

/-- Whether a character would be seen for itself inside a quoted text. -/
def isVisible (c : Char) : Bool := !isExtending c && !isUnprintable c

/-- A character written by its code point in hexadecimal digits. -/
def codePointEscape (c : Char) : List Char :=
  ['\\', 'u', '\x7b'] ++ Nat.toDigits 16 c.toNat ++ ['\x7d']

/-- What is written for a character between the quotes. -/
def quoteChar (c : Char) : List Char :=
  if c = '\x00' then ['\\', '0']
  else if c = '\t' then ['\\', 't']
  else if c = '\r' then ['\\', 'r']
  else if c = '\n' then ['\\', 'n']
  else if c = '"' then ['\\', '"']
  else if c = '\\' then ['\\', '\\']
  else if isVisible c then [c]
  else codePointEscape c

/-- A text between double quotes. -/
def quote (s : String) : String :=
  String.ofList ('"' :: s.toList.flatMap quoteChar ++ ['"'])

end FormLower
