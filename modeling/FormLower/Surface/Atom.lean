import FormLower.Source

/-! # What atoms stand for

An atom is a truth value, a number or a symbol.  Numbers are told from symbols by their shape
alone: an optional minus sign, digits, and optionally a point with digits after it.  Whether the
value fits is a question of its own. -/

namespace FormLower

/-- A numeral as it is written. -/
structure Numeral where
  negative : Bool
  whole : List Char
  /-- the digits after the point, if there is a point -/
  fraction : Option (List Char)
deriving DecidableEq, Repr

namespace Numeral

/-- Read an atom that has the shape of a number. -/
def ofChars? (cs : List Char) : Option Numeral :=
  let (negative, body) : Bool × List Char :=
    match cs with
    | '-' :: rest => (true, rest)
    | rest => (false, rest)
  match spanDigits body with
  | ([], _) => none
  | (whole, []) => some ⟨negative, whole, none⟩
  | (whole, '.' :: fraction) =>
    if fraction ≠ [] ∧ fraction.all Char.isDigit then some ⟨negative, whole, some fraction⟩
    else none
  | _ => none

/-- The number that a numeral is written for; without a point it has to be in range. -/
def value? (n : Numeral) : Option Number :=
  match n.fraction with
  | none =>
    let size : Int := digitsValue n.whole
    Number.ofInt? (if n.negative then -size else size)
  | some fraction => some (.float ((Decimal.ofDigits n.whole fraction 0).toBinary n.negative))

end Numeral

/-- What an atom stands for, before the values of numbers are looked at. -/
inductive AtomClass where
  | bool (value : Bool)
  | numeral (n : Numeral)
  | symbol
deriving DecidableEq, Repr

/-- Tell what an atom stands for. -/
def AtomClass.of (text : String) : AtomClass :=
  if text = Leaf.boolWord true then .bool true
  else if text = Leaf.boolWord false then .bool false
  else
    match Numeral.ofChars? text.toList with
    | some n => .numeral n
    | none => .symbol

/-- Whether an atom is a symbol. -/
def isSymbol (text : String) : Bool := AtomClass.of text = .symbol

/-- The leaf that an atom stands for, unless its value is out of range. -/
def Leaf.ofAtom? (text : String) : Option Leaf :=
  match AtomClass.of text with
  | .bool value => some (.bool value)
  | .numeral n => n.value?.map .number
  | .symbol => some (.symbol text)

end FormLower
