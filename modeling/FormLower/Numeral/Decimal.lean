import FormLower.Numeral.Binary64

/-! # Decimal numerals

A decimal is a natural number of units of a power of ten.  This file reads numerals written in
decimal digits and finds the floating-point number nearest to a decimal. -/

namespace FormLower

def pow10 (n : Nat) : Nat := Nat.pow 10 n

/-- The number `digits * 10 ^ exponent`. -/
structure Decimal where
  digits : Nat
  exponent : Int
deriving DecidableEq, Repr

/-- The number that decimal digits are written for, the highest first. -/
def digitsValue (cs : List Char) : Nat :=
  cs.foldl (fun n c => n * 10 + (c.toNat - '0'.toNat)) 0

/-- The decimal digits of a number, the highest first. -/
def digitChars (n : Nat) : List Char := Nat.toDigits 10 n

namespace Decimal

/-- The numeral `whole.fraction` times `10 ^ exponent`. -/
def ofDigits (whole fraction : List Char) (exponent : Int) : Decimal :=
  ⟨digitsValue (whole ++ fraction), exponent - fraction.length⟩

/-- The floating-point number with the given sign nearest to a decimal.

Outside `10 ^ -400` to `10 ^ 400` every decimal rounds to zero or to infinity, so that no power of
ten grows with the size of a written exponent. -/
def toBinary (negative : Bool) (d : Decimal) : Binary64 :=
  let magnitude := d.exponent + (digitChars d.digits).length
  if d.digits = 0 ∨ magnitude < -400 then .ofRank negative 0
  else if 400 < magnitude then .infinite negative
  else .ofFraction negative (d.digits * pow10 d.exponent.toNat) (pow10 (-d.exponent).toNat)

end Decimal

/-! ### Reading numerals -/

/-- Cut the leading decimal digits off. -/
def spanDigits (cs : List Char) : List Char × List Char :=
  (cs.takeWhile Char.isDigit, cs.dropWhile Char.isDigit)

/-- Cut a leading sign off; no sign means not negative. -/
def spanSign : List Char → Bool × List Char
  | '-' :: cs => (true, cs)
  | '+' :: cs => (false, cs)
  | cs => (false, cs)

/-- Read an integer: an optional sign and at least one digit. -/
def readInt? (cs : List Char) : Option Int :=
  let (negative, body) := spanSign cs
  if body ≠ [] ∧ body.all Char.isDigit then
    some (if negative then -(digitsValue body : Int) else digitsValue body)
  else none

/-- Read the exponent part of a numeral, which may be missing. -/
def readExponent? : List Char → Option Int
  | [] => some 0
  | c :: cs => if c = 'e' ∨ c = 'E' then readInt? cs else none

/-- Read a decimal without its sign: digits with a point before, among or after them, or none, and
an optional exponent. -/
def Decimal.read? (cs : List Char) : Option Decimal :=
  let (whole, afterWhole) := spanDigits cs
  let (fraction, afterFraction) :=
    match afterWhole with
    | '.' :: rest => spanDigits rest
    | rest => ([], rest)
  if whole = [] ∧ fraction = [] then none
  else (readExponent? afterFraction).map (Decimal.ofDigits whole fraction)

/-- Read a floating-point number: an optional sign, then a decimal, `inf`, `infinity` or `nan`,
the words in either case. -/
def Binary64.read? (cs : List Char) : Option Binary64 :=
  let (negative, body) := spanSign cs
  let word := String.ofList (body.map Char.toLower)
  if word = "inf" ∨ word = "infinity" then some (.infinite negative)
  else if word = "nan" then some .nan
  else (Decimal.read? body).map (Decimal.toBinary negative)

end FormLower
