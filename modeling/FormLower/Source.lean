import FormLower.Number
import FormLower.Place
import FormLower.Text.Quoted

/-! # Source trees

What a text in the surface language is read as: leaves, calls `(head argument …)` and lists
`[element …]`, each with the place it was read from. -/

namespace FormLower

/-- A leaf of a source tree. -/
inductive Leaf where
  | symbol (name : String)
  | string (value : String)
  | number (value : Number)
  | bool (value : Bool)
deriving DecidableEq

/-- A source tree.  The head of a call is the name of what is called and no tree of its own. -/
inductive Source where
  | leaf (value : Leaf) (place : Place)
  | call (head : String) (args : List Source) (place : Place)
  | list (elements : List Source) (place : Place)

/-! ### Leaves -/

namespace Leaf

/-- The words for the truth values. -/
def boolWord (b : Bool) : String := if b then "true" else "false"

/-- The text of a leaf where a name is wanted: a string gives its content. -/
def rawText : Leaf → String
  | .symbol name => name
  | .string value => value
  | .number value => value.text
  | .bool value => boolWord value

/-- A leaf as it is written in the surface language. -/
def text : Leaf → String
  | .string value => quote value
  | l => l.rawText

/-- Equality of leaves, numbers compared as numbers. -/
def same : Leaf → Leaf → Bool
  | .symbol a, .symbol b => a == b
  | .string a, .string b => a == b
  | .number a, .number b => a.same b
  | .bool a, .bool b => a == b
  | _, _ => false

/-- The name of the kind of leaf. -/
def variant : Leaf → String
  | .symbol _ => "Symbol"
  | .string _ => "String"
  | .number _ => "Number"
  | .bool _ => "Bool"

end Leaf

namespace Source

/-! ### Building -/

def symbol (name : String) : Source := .leaf (.symbol name) .unknown

def string (value : String) : Source := .leaf (.string value) .unknown

def number (value : Number) : Source := .leaf (.number value) .unknown

def bool (value : Bool) : Source := .leaf (.bool value) .unknown

/-! ### Parts -/

def place : Source → Place
  | .leaf _ p => p
  | .call _ _ p => p
  | .list _ p => p

/-- The same tree at another place. -/
def withPlace (p : Place) : Source → Source
  | .leaf v _ => .leaf v p
  | .call h as _ => .call h as p
  | .list es _ => .list es p

def location (s : Source) : Option Location := s.place.location

/-- The head of a call. -/
def head? : Source → Option String
  | .call h _ _ => some h
  | _ => none

/-- The arguments of a call; leaves and lists have none. -/
def args : Source → List Source
  | .call _ as _ => as
  | _ => []

/-- The text of a leaf where a name is wanted.  Calls and lists have none. -/
def rawText? : Source → Option String
  | .leaf v _ => some v.rawText
  | _ => none

/-- Whether a tree is a string. -/
def isString : Source → Bool
  | .leaf (.string _) _ => true
  | _ => false

/-- The name of the kind of tree. -/
def variant : Source → String
  | .leaf v _ => v.variant
  | .call _ _ _ => "Expression"
  | .list _ _ => "List"

/-! ### The surface language -/

mutual

/-- A tree as it is written in the surface language. -/
def text : Source → String
  | .leaf v _ => v.text
  | .call h as _ => "(" ++ " ".intercalate (h :: texts as) ++ ")"
  | .list es _ => "[" ++ " ".intercalate (texts es) ++ "]"

def texts : List Source → List String
  | [] => []
  | s :: rest => s.text :: texts rest

end

theorem texts_eq_map : ∀ ss : List Source, texts ss = ss.map text
  | [] => rfl
  | s :: rest => by rw [texts, texts_eq_map rest, List.map_cons]

/-! ### Equality -/

mutual

/-- Equality of trees and their places, numbers compared as numbers. -/
def same : Source → Source → Bool
  | .leaf v p, .leaf w q => v.same w && p == q
  | .call h as p, .call k bs q => h == k && sameAll as bs && p == q
  | .list es p, .list fs q => sameAll es fs && p == q
  | _, _ => false

def sameAll : List Source → List Source → Bool
  | [], [] => true
  | s :: ss, t :: ts => s.same t && sameAll ss ts
  | _, _ => false

end

/-! ### Trees up to their places -/

mutual

/-- A tree with every place forgotten. -/
def erase : Source → Source
  | .leaf v _ => .leaf v .unknown
  | .call h as _ => .call h (eraseAll as) .unknown
  | .list es _ => .list (eraseAll es) .unknown

def eraseAll : List Source → List Source
  | [] => []
  | s :: rest => s.erase :: eraseAll rest

end

theorem eraseAll_eq_map : ∀ ss : List Source, eraseAll ss = ss.map erase
  | [] => rfl
  | s :: rest => by rw [eraseAll, eraseAll_eq_map rest, List.map_cons]

end Source

end FormLower
