import FormLower.Numeral.Decimal

/-! # The shortest decimal of a floating-point number

Of all decimals that round to a given floating-point number the ones with the fewest digits are
taken, and of these the nearest.  The search walks the grids of one, two, … seventeen digits.  On
each grid only the two neighbours of the number can be the nearest, and a neighbour counts when it
rounds back to the number. -/

namespace FormLower

/-- Which of two equally near decimals is taken. -/
inductive Tie where
  | even
  | away
deriving DecidableEq, Repr

namespace Binary64

/-- The magnitude of a rank in units of `10 ^ -400`, rounded down.

The least positive magnitude is above `10 ^ -324`, so a nonzero rank gives at least 77 digits,
which are the leading digits of the magnitude. -/
def scaledUnits (rank : Nat) : Nat := units rank * pow10 400 / pow2 1074

/-- Whether a decimal rounds to a rank. -/
def readsAs (rank : Nat) (d : Decimal) : Bool :=
  decide (d.toBinary false = ofRank false rank)

/-- The exact decimal of a rank. -/
def exactDecimal (rank : Nat) : Decimal := ⟨units rank * Nat.pow 5 1074, -1074⟩

/-- Compare twice the magnitude of a rank with `n * 10 ^ (k - 400)`. -/
def compareTwice (rank n k : Nat) : Ordering :=
  compare (2 * units rank * pow10 400) (n * pow10 k * pow2 1074)

/-- Of the two neighbours on a grid, `low` and `low + 1`, the nearer one, given how twice the
magnitude compares with their sum. -/
def nearer (tie : Tie) (low : Nat) (below above : Decimal) : Ordering → Decimal
  | .lt => below
  | .gt => above
  | .eq =>
    match tie with
    | .away => above
    | .even => if low % 2 = 0 then below else above

/-- On the grid of `10 ^ (k - 400)`, the neighbour of the magnitude that rounds back to it; if both
do, the nearer one. -/
def gridNeighbour (tie : Tie) (rank k : Nat) : Option Decimal :=
  let low := scaledUnits rank / pow10 k
  let below : Decimal := ⟨low, (k : Int) - 400⟩
  let above : Decimal := ⟨low + 1, (k : Int) - 400⟩
  if readsAs rank below then
    if readsAs rank above then
      some (nearer tie low below above (compareTwice rank (2 * low + 1) k))
    else some below
  else if readsAs rank above then some above
  else none

/-- The shortest decimal that rounds to a rank, and of those the nearest. -/
def shortest (tie : Tie) (rank : Nat) : Decimal :=
  let length := (digitChars (scaledUnits rank)).length
  ((List.range 17).findSome? fun i => gridNeighbour tie rank (length - (i + 1))).getD
    (exactDecimal rank)

end Binary64

end FormLower
