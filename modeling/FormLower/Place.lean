/-! # Places in a text

A program is read from a text, and what is built from it keeps the place it was read from: the
location of its first character and the span from there to just after its last one.  Lines and
columns count from one; a column is one character, whatever its width or its encoded length. -/

namespace FormLower

/-- A line and a column of a named text. -/
structure Location where
  file : String
  line : Nat
  column : Nat
deriving DecidableEq, Repr

/-- A location is written `file:line:column`. -/
def Location.text (l : Location) : String :=
  l.file ++ ":" ++ toString l.line ++ ":" ++ toString l.column

/-- The stretch of text from `start` up to but not including `stop`. -/
structure Span where
  start : Location
  stop : Location
deriving DecidableEq, Repr

/-- A span is written as its two ends. -/
def Span.text (s : Span) : String :=
  s.start.text ++ " - " ++ s.stop.text

/-- Where something stands, as far as it is known. -/
structure Place where
  location : Option Location
  span : Option Span
deriving DecidableEq, Repr

namespace Place

/-- The place of something that was built and not read. -/
def unknown : Place := ⟨none, none⟩

/-- The place of something read from the whole of a span. -/
def ofSpan (s : Span) : Place := ⟨some s.start, some s⟩

end Place

end FormLower
