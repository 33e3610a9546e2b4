import FormLower.Numeral.Layout

/-! # Numbers of a program

Integers and floating-point numbers are kept apart from the text they are read from to the program
they end up in: `5` and `5.0` are different numbers. -/

namespace FormLower

/-- A numeric literal. -/
inductive Number where
  | int (value : Int64)
  | float (value : Binary64)
deriving DecidableEq

namespace Number

/-- Whether an integer has 64 bits. -/
def InRange (i : Int) : Prop := -(pow2 63 : Int) ≤ i ∧ i < pow2 63

instance (i : Int) : Decidable (InRange i) := inferInstanceAs (Decidable (_ ∧ _))

/-- The integer literal of a value, if the value is in range. -/
def ofInt? (i : Int) : Option Number :=
  if InRange i then some (.int (.ofInt i)) else none

/-- Neither infinite nor undefined. -/
def isFinite : Number → Bool
  | .int _ => true
  | .float x => x.isFinite

/-- Equality as numbers; an integer is never equal to a float. -/
def same : Number → Number → Bool
  | .int a, .int b => a == b
  | .float a, .float b => a.sameNumber b
  | _, _ => false

/-- A floating-point literal is written in positional notation.  A whole one has all its digits and
`.0`, any other one the fewest digits that identify it, where of two equally near ones the greater
is taken. -/
def layout : Layout := ⟨.away, true, fun _ => true⟩

/-- The text of a number, from which an integer can be told from a float. -/
def text : Number → String
  | .int i => toString i.toInt
  | .float x => String.ofList (layout.text x)

end Number

end FormLower
