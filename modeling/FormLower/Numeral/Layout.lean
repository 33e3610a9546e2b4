import FormLower.Numeral.Shortest

/-! # How floating-point numbers are laid out

Which digits are written and how they are laid out are two decisions.  The first is made in
`Shortest`; the second is a record that each output format fills in. -/

namespace FormLower

/-- Digits without trailing zeros and the place of the point: the number `0.d₁d₂… * 10 ^ point`. -/
structure Figures where
  digits : List Char
  point : Int
deriving DecidableEq, Repr

/-- The figures of a decimal.  Zero is written with one digit before the point. -/
def Decimal.figures (d : Decimal) : Figures :=
  if d.digits = 0 then ⟨['0'], 1⟩
  else
    let all := digitChars d.digits
    ⟨(all.reverse.dropWhile (· = '0')).reverse, d.exponent + all.length⟩

namespace Figures

/-- Positional notation, always with a point and a digit on both sides of it. -/
def positional (f : Figures) : List Char :=
  let places := f.point.toNat
  if f.point ≤ 0 then '0' :: '.' :: List.replicate (-f.point).toNat '0' ++ f.digits
  else if f.digits.length ≤ places then
    f.digits ++ List.replicate (places - f.digits.length) '0' ++ ['.', '0']
  else f.digits.take places ++ '.' :: f.digits.drop places

/-- The exponent of ten when one digit stands before the point. -/
def exponent (f : Figures) : Int := f.point - 1

/-- Scientific notation: the exponent always has a sign and at least one digit. -/
def scientific (f : Figures) : List Char :=
  let fraction := f.digits.drop 1
  f.digits.take 1 ++ (if fraction = [] then [] else '.' :: fraction) ++
    'e' :: (if f.exponent < 0 then '-' else '+') :: digitChars f.exponent.natAbs

end Figures

/-- The decisions of an output format for floating-point numbers. -/
structure Layout where
  /-- which of two equally near shortest decimals is written -/
  tie : Tie
  /-- whether whole numbers are written with all the digits of their value -/
  wholeInFull : Bool
  /-- the scientific exponents that are written in positional notation -/
  isPositional : Int → Bool

namespace Layout

/-- Whether the magnitude of a rank is a whole number. -/
def isWhole (rank : Nat) : Bool := Binary64.units rank % pow2 1074 = 0

/-- The text of a finite magnitude. -/
def magnitude (l : Layout) (rank : Nat) : List Char :=
  if l.wholeInFull && isWhole rank then
    digitChars (Binary64.units rank / pow2 1074) ++ ['.', '0']
  else
    let f := (if rank = 0 then ⟨0, 0⟩ else Binary64.shortest l.tie rank : Decimal).figures
    if l.isPositional f.exponent then f.positional else f.scientific

/-- The text of a floating-point number; zero keeps its sign. -/
def text (l : Layout) : Binary64 → List Char
  | .finite negative rank => (if negative then ['-'] else []) ++ l.magnitude rank.val
  | .infinite negative => (if negative then ['-'] else []) ++ ['i', 'n', 'f']
  | .nan => ['N', 'a', 'N']

end Layout

end FormLower
