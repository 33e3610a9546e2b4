import FormLower.Report
import FormLower.Surface.Atom
import FormLower.Surface.Datum

/-! # Reading source trees

A text is read in three steps: it is cut into tokens, the tokens are grouped by their brackets, and
the groups become calls and lists.  The first two find out whether the whole text is well formed;
only then are calls without a proper head and numbers out of range looked for, from left to
right. -/

namespace FormLower

/-- A named text. -/
structure Script where
  name : String
  content : String
deriving DecidableEq, Repr

/-! ### Errors -/

/-- What a reader wants where it cannot go on. -/
inductive Wanted where
  | program
  | form
  | formOrEnd
deriving DecidableEq, Repr

/-- What is wanted, in words. -/
def Wanted.text : Wanted → String
  | .program => "program"
  | .form => "expression, list, string, boolean, number, or symbol"
  | .formOrEnd => "EOI, expression, list, string, boolean, number, or symbol"

/-- What is wrong with a text. -/
inductive ReadFault where
  | expected (what : Wanted)
  | headNotSymbol (found : String)
  | emptyCall
  | integerOutOfRange (text : String)
  /-- A fault that is described by whoever found it. -/
  | stated (message issuer : String)
deriving DecidableEq, Repr

namespace ReadFault

/-- What is wrong, in words. -/
def message : ReadFault → String
  | .expected what => "Syntax error: expected " ++ what.text
  | .headNotSymbol found => "Expression head must be a symbol, found `" ++ found ++ "`."
  | .emptyCall => "Empty expression `()`."
  | .integerOutOfRange text => "Integer literal `" ++ text ++ "` is out of range."
  | .stated message _ => message

/-- The part of the library that found a fault. -/
def issuer : ReadFault → String
  | .stated _ issuer => issuer
  | _ => "hyforge.reader"

end ReadFault

/-- A fault and its place. -/
structure ReadError where
  fault : ReadFault
  place : Place
deriving DecidableEq, Repr

namespace ReadError

/-- An error as a report. -/
def report (e : ReadError) : Report := ⟨.error, e.fault.message, e.fault.issuer, e.place⟩

def text (e : ReadError) : String := e.report.located

/-- The error of a text whose brackets or quotes do not fit.  A text that cannot even begin is no
program; after that, the end of the text is wanted only where no bracket is open. -/
def ofNesting (file : String) (f : NestingFault) : ReadError :=
  let what : Wanted :=
    if f.position = .first then .program else if f.isNested then .form else .formOrEnd
  ⟨.expected what, ⟨some (f.position.inFile file), none⟩⟩

end ReadError

/-! ### From data to trees -/

namespace Script

/-- An error at an extent. -/
def errorAt (s : Script) (e : Extent) (fault : ReadFault) : ReadError := ⟨fault, e.inFile s.name⟩

/-- The exact text of a datum. -/
def excerpt (s : Script) (d : Datum) : String := String.ofList (d.extent.excerpt s.content.toList)

/-- The name that a datum is as the head of a call. -/
def head (s : Script) : Datum → Except ReadError String
  | .atom text e => if isSymbol text then .ok text else .error (notSymbol (.atom text e))
  | d => .error (notSymbol d)
where
  /-- The error of a head that is no symbol. -/
  notSymbol (d : Datum) : ReadError := s.errorAt d.extent (.headNotSymbol (s.excerpt d))

/-- The leaf that an atom stands for. -/
def leaf (s : Script) (text : String) (e : Extent) : Except ReadError Source :=
  match Leaf.ofAtom? text with
  | some value => .ok (.leaf value (e.inFile s.name))
  | none => .error (s.errorAt e (.integerOutOfRange text))

mutual

def tree (s : Script) : Datum → Except ReadError Source
  | .atom text e => s.leaf text e
  | .string value e => .ok (.leaf (.string value) (e.inFile s.name))
  | .group .square items e => do
    let elements ← s.trees items
    .ok (.list elements (e.inFile s.name))
  | .group .round [] e => .error (s.errorAt e .emptyCall)
  | .group .round (first :: items) e => do
    let head ← s.head first
    let args ← s.trees items
    .ok (.call head args (e.inFile s.name))

def trees (s : Script) : List Datum → Except ReadError (List Source)
  | [] => .ok []
  | d :: ds => do
    let t ← s.tree d
    let ts ← s.trees ds
    .ok (t :: ts)

end

/-- Read all the trees of a script. -/
def read (s : Script) : Except ReadError (List Source) :=
  match Datum.ofText s.content.toList with
  | .error f => .error (.ofNesting s.name f)
  | .ok data => s.trees data

end Script

end FormLower
