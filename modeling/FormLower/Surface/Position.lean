import FormLower.Place

/-! # Positions in a text

Where a character of a text stands.  A line ends after a line feed, and every other character, a
carriage return too, moves on by one column. -/

namespace FormLower

/-- A line and a column, counted from one. -/
structure Position where
  line : Nat
  column : Nat
deriving DecidableEq, Repr

namespace Position

/-- The position of the first character of a text. -/
def first : Position := ⟨1, 1⟩

/-- The position after a character. -/
def after (p : Position) (c : Char) : Position :=
  if c = '\n' then ⟨p.line + 1, 1⟩ else ⟨p.line, p.column + 1⟩

/-- The position after several characters. -/
def afterAll (p : Position) (cs : List Char) : Position := cs.foldl after p

/-- Whether a position stands before another one. -/
def isBefore (p q : Position) : Bool :=
  p.line < q.line || (p.line == q.line && p.column < q.column)

/-- A position as the location in a file. -/
def inFile (file : String) (p : Position) : Location := ⟨file, p.line, p.column⟩

end Position

/-- From the first position of something read up to the position after it. -/
structure Extent where
  start : Position
  stop : Position
deriving DecidableEq, Repr

namespace Extent

/-- An extent as a place in a file. -/
def inFile (file : String) (e : Extent) : Place :=
  .ofSpan ⟨e.start.inFile file, e.stop.inFile file⟩

/-- Whether a position lies in an extent. -/
def covers (e : Extent) (p : Position) : Bool := !p.isBefore e.start && p.isBefore e.stop

/-- The characters in an extent, of the characters from a position on. -/
def excerptFrom (e : Extent) : Position → List Char → List Char
  | _, [] => []
  | p, c :: cs =>
    if e.covers p then c :: e.excerptFrom (p.after c) cs else e.excerptFrom (p.after c) cs

/-- The characters of a text in an extent. -/
def excerpt (e : Extent) (text : List Char) : List Char := e.excerptFrom .first text

end Extent

end FormLower
