/-! # Floating-point numbers of 64 bits

The finite magnitudes of the binary format with 53 bits of precision are all whole multiples of
`2 ^ -1074`, and there are finitely many of them.  They are numbered here from zero upwards: the
*rank* of a magnitude says how many magnitudes are smaller, and `units` gives the magnitude of a
rank as a multiple of `2 ^ -1074`.  Neighbouring ranks are neighbouring numbers, also across a
power of two, so rounding a fraction is finding the nearest rank, and the rank after the last
finite one stands for infinity.  The rank is also what the low 63 bits of the interchange format
hold, read as a number. -/

namespace FormLower

def pow2 (n : Nat) : Nat := Nat.pow 2 n

/-- How many finite magnitudes there are. -/
def Binary64.rankLimit : Nat := 2047 * pow2 52

/-- A floating-point number; zero has both signs, and there is one value that is not a number. -/
inductive Binary64 where
  | finite (negative : Bool) (rank : Fin Binary64.rankLimit)
  | infinite (negative : Bool)
  | nan
deriving DecidableEq, Repr

/-- The quotient of two naturals to the nearest natural; a half goes to the even neighbour. -/
def roundHalfEven (n d : Nat) : Nat :=
  let low := n / d
  let rest := n % d
  if 2 * rest < d then low
  else if d < 2 * rest then low + 1
  else low + low % 2

namespace Binary64

/-- The magnitude of a rank as a multiple of `2 ^ -1074`. -/
def units (rank : Nat) : Nat :=
  if rank < pow2 52 then rank
  else (pow2 52 + rank % pow2 52) * pow2 (rank / pow2 52 - 1)

/-- The rank nearest to `n / d` units; of two equally near ones the even one.

A quotient of more than 53 bits loses the bits below them; each bit lost moves the rank up by the
`2 ^ 52` ranks of one binade. -/
def nearestRank (n d : Nat) : Nat :=
  let lost := (n / d).log2 - 52
  lost * pow2 52 + roundHalfEven n (d * pow2 lost)

/-- The number of a rank; a rank beyond the finite ones is infinity. -/
def ofRank (negative : Bool) (rank : Nat) : Binary64 :=
  if h : rank < rankLimit then .finite negative ⟨rank, h⟩ else .infinite negative

/-- The number with the given sign nearest to `n / d`. -/
def ofFraction (negative : Bool) (n d : Nat) : Binary64 :=
  ofRank negative (nearestRank (n * pow2 1074) d)

def zero : Binary64 := .finite false ⟨0, by decide⟩

/-- The number that 64 bits stand for, the highest being the sign. -/
def ofBits (bits : UInt64) : Binary64 :=
  let negative := pow2 63 ≤ bits.toNat
  let low := bits.toNat % pow2 63
  if low ≤ rankLimit then ofRank negative low else .nan

/-- Neither infinite nor `nan`. -/
def isFinite : Binary64 → Bool
  | .finite _ _ => true
  | _ => false

/-- Equality as numbers: the two zeros are equal, and `nan` is not equal to itself. -/
def sameNumber : Binary64 → Binary64 → Bool
  | .finite n r, .finite n' r' => r == r' && (n == n' || r.val == 0)
  | .infinite n, .infinite n' => n == n'
  | _, _ => false

end Binary64

end FormLower
