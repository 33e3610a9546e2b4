/-! # Sets of characters

Properties of characters beyond ASCII are tables of ranges of code points. -/

namespace FormLower

/-- Whether a code point lies in one of several ranges, given in ascending order by their first and
last code points; ranges after the code point are not looked at. -/
def inRanges (n : Nat) : List (Nat × Nat) → Bool
  | [] => false
  | (first, last) :: rest => if n < first then false else n ≤ last || inRanges n rest

end FormLower
