import FormLower.Json.Token

/-! # Reading the data format

The tokens of a text are put together by a machine that holds the arrays and objects that are open,
from the innermost outwards, and knows what may come next. -/

namespace FormLower
namespace Json

/-- An array or object that is open, with what it holds so far, the latest first.  An object also
has the name of the member that is being read. -/
inductive Frame where
  | array (items : List Json)
  | object (members : List (String × Json)) (name : String)

/-- What may come next. -/
inductive Expect where
  | value
  /-- The first item of an array, or its end. -/
  | firstItem
  /-- The name of a member after those before it; the object may end if there is none before. -/
  | name (members : List (String × Json))
  | colon (members : List (String × Json)) (name : String)
  /-- What goes on after a value. -/
  | after (value : Json)

/-- A machine that is reading. -/
structure Machine where
  stack : List Frame
  expect : Expect

namespace Machine

/-- Read a token that begins a value. -/
def beginValue (stack : List Frame) : Token → Option Machine
  | .scalar value => some ⟨stack, .after value⟩
  | .string value => some ⟨stack, .after (.string value)⟩
  | .openArray => some ⟨.array [] :: stack, .firstItem⟩
  | .openObject => some ⟨stack, .name []⟩
  | _ => none

def goOn (value : Json) : List Frame → Token → Option Machine
  | .array items :: stack, .comma => some ⟨.array (value :: items) :: stack, .value⟩
  | .array items :: stack, .closeArray => some ⟨stack, .after (.array (value :: items).reverse)⟩
  | .object members name :: stack, .comma => some ⟨stack, .name ((name, value) :: members)⟩
  | .object members name :: stack, .closeObject =>
    some ⟨stack, .after (.object ((name, value) :: members).reverse)⟩
  | _, _ => none

def step (m : Machine) (t : Token) : Option Machine :=
  match m.expect, m.stack, t with
  | .value, stack, t => beginValue stack t
  | .firstItem, .array _ :: stack, .closeArray => some ⟨stack, .after (.array [])⟩
  | .firstItem, stack, t => beginValue stack t
  | .name [], stack, .closeObject => some ⟨stack, .after (.object [])⟩
  | .name members, stack, .string name => some ⟨stack, .colon members name⟩
  | .name _, _, _ => none
  | .colon members name, stack, .colon => some ⟨.object members name :: stack, .value⟩
  | .colon _ _, _, _ => none
  | .after value, stack, t => goOn value stack t

def run : Machine → List Token → Option Machine
  | m, [] => some m
  | m, t :: ts =>
    match m.step t with
    | some m' => run m' ts
    | none => none

end Machine

/-- The value that a text is written for. -/
def parse? (text : String) : Option Json := do
  let ts ← tokens? text.toList
  match ← Machine.run ⟨[], .value⟩ ts with
  | ⟨[], .after value⟩ => some value
  | _ => none

/-- How deep a value may be nested that is taken from outside. -/
def maxDepth : Nat := 127

/-- The value that a text is written for, unless it is nested too deep to be taken from outside. -/
def read? (text : String) : Option Json :=
  (parse? text).filter fun j => j.depth ≤ maxDepth

end Json
end FormLower
