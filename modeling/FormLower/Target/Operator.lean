/-! # Operators

The operators of the target language, with the symbols that name them in the surface language and
the texts they are listed as. -/

namespace FormLower

/-- The operators that join two operands into a value. -/
inductive Arithmetic where
  | add
  | sub
  | mul
  | div
deriving DecidableEq, Repr

namespace Arithmetic

def all : List Arithmetic := [.add, .sub, .mul, .div]

/-- The symbol of an operator, which is also its text in a listing. -/
def symbol : Arithmetic → String
  | .add => "+"
  | .sub => "-"
  | .mul => "*"
  | .div => "/"

def ofSymbol? (s : String) : Option Arithmetic := all.find? fun op => op.symbol = s

end Arithmetic

/-- The operators of a comparison chain. -/
inductive Comparison where
  | eq
  | notEq
  | lt
  | le
  | gt
  | ge
  | member
  | notMember
  | same
  | notSame
deriving DecidableEq, Repr

namespace Comparison

def all : List Comparison :=
  [.eq, .notEq, .lt, .le, .gt, .ge, .member, .notMember, .same, .notSame]

def symbol : Comparison → String
  | .eq => "=="
  | .notEq => "!="
  | .lt => "<"
  | .le => "<="
  | .gt => ">"
  | .ge => ">="
  | .member => "in"
  | .notMember => "not-in"
  | .same => "is"
  | .notSame => "is-not"

/-- The text of an operator in a listing: as its symbol, but for the operators of two words. -/
def text : Comparison → String
  | .notMember => "not in"
  | .notSame => "is not"
  | op => op.symbol

def ofSymbol? (s : String) : Option Comparison := all.find? fun op => op.symbol = s

end Comparison

/-- What an identifier is used for where it stands. -/
inductive Use where
  | load
  | store
  | param
deriving DecidableEq, Repr

end FormLower
