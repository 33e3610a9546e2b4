import FormLower.Numeral.Layout

/-! # Values of the data format

The interchange format in which trees are stored: nested arrays and objects of scalars.  The
members of an object keep their order. -/

namespace FormLower

/-- A value of the data format.  A number without fraction and exponent is an integer if it fits 64
bits, with a sign or without; every other number is a float. -/
inductive Json where
  | null
  | bool (value : Bool)
  | integer (value : Int)
  | float (value : Binary64)
  | string (value : String)
  | array (items : List Json)
  | object (members : List (String × Json))

namespace Json

/-- The value of a member; of several members of one name the last. -/
def lastMember? (name : String) : List (String × Json) → Option Json
  | [] => none
  | (key, value) :: rest =>
    match lastMember? name rest with
    | some later => some later
    | none => if key = name then some value else none

/-- The value of a member of an object. -/
def member? (name : String) : Json → Option Json
  | .object members => lastMember? name members
  | _ => none

/-- Whether an integer is written without being turned into a float. -/
def FitsInteger (i : Int) : Prop := -(pow2 63 : Int) ≤ i ∧ i < pow2 64

instance (i : Int) : Decidable (FitsInteger i) := inferInstanceAs (Decidable (_ ∧ _))

/-! ### Nesting -/

mutual

/-- How many arrays and objects are open at the deepest place of a value. -/
def depth : Json → Nat
  | .array items => depthOfItems items + 1
  | .object members => depthOfMembers members + 1
  | _ => 0

/-- The greatest depth of several items. -/
def depthOfItems : List Json → Nat
  | [] => 0
  | item :: items => max item.depth (depthOfItems items)

def depthOfMembers : List (String × Json) → Nat
  | [] => 0
  | (_, value) :: members => max value.depth (depthOfMembers members)

end

end Json

end FormLower
