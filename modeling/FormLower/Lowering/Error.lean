import FormLower.Report
import FormLower.Source

/-! # Lowering errors

Everything that can be wrong with a source tree.  A fault that happens inside a form names that
form; a bare list belongs to no form and is attributed to the form around it. -/

namespace FormLower

/-- The kinds of faults. -/
inductive FaultKind where
  | unknownVariant
  | arity
  | unboundOperator
  | unexpectedSequence
  | malformed
deriving DecidableEq, Repr

def FaultKind.text : FaultKind → String
  | .unknownVariant => "unknown literal variant"
  | .arity => "arity error"
  | .unboundOperator => "unbound operator"
  | .unexpectedSequence => "unexpected sequence"
  | .malformed => "malformed form"

/-- What is wrong. -/
inductive Fault where
  /-- A tree of a kind that has no lowering of its own. -/
  | unknownVariant (variant : String)
  /-- A form with fewer arguments than it needs. -/
  | arity (form : String) (expected found : Nat)
  /-- A form that is lowered to an operation but whose name is no operator. -/
  | unboundOperator (form : String)
  /-- A sequence of statements in the place of one expression. -/
  | unexpectedSequence (form : String)
  /-- A tree that cannot stand where a form wants a name or a list of names. -/
  | malformed (form what : String) (found : Source)
  /-- A fault that is described by whoever found it. -/
  | stated (kind : FaultKind) (form : Option String) (message issuer : String)

namespace Fault

def kind : Fault → FaultKind
  | .unknownVariant _ => .unknownVariant
  | .arity _ _ _ => .arity
  | .unboundOperator _ => .unboundOperator
  | .unexpectedSequence _ => .unexpectedSequence
  | .malformed _ _ _ => .malformed
  | .stated kind _ _ _ => kind

/-- The form that a fault happened in, when it is part of the fault. -/
def form : Fault → Option String
  | .unknownVariant _ => none
  | .arity form _ _ => some form
  | .unboundOperator form => some form
  | .unexpectedSequence form => some form
  | .malformed form _ _ => some form
  | .stated _ form _ _ => form

/-- What is wrong, in words. -/
def message : Fault → String
  | .unknownVariant variant => "No lowering exists for a bare " ++ variant ++ " node."
  | .arity form expected found =>
    "`" ++ form ++ "` expects at least " ++ toString expected ++ " argument(s), found " ++
      toString found ++ "."
  | .unboundOperator form =>
    "`" ++ form ++ "` was dispatched as an operator but has no operator table entry."
  | .unexpectedSequence form =>
    "`" ++ form ++ "` needs a single expression here but got a `do` sequence."
  | .malformed form what found =>
    "`" ++ form ++ "` expects " ++ what ++ ", found " ++ found.text ++ "."
  | .stated _ _ message _ => message

/-- The part of the lowering that found a fault. -/
def issuer : Fault → String
  | .unknownVariant _ => "hyforge.lower.classify"
  | .arity form _ _ => "hyforge.lower." ++ form
  | .unboundOperator _ => "hyforge.lower.special"
  | .unexpectedSequence form => "hyforge.lower." ++ form
  | .malformed form _ _ => "hyforge.lower." ++ form
  | .stated _ _ _ issuer => issuer

end Fault

/-- A fault, the place it is reported at, and the form it was found inside if it names none. -/
structure LoweringError where
  fault : Fault
  place : Place
  enclosing : Option String

namespace LoweringError

/-! ### The faults at their places -/

/-- A fault at a place, not inside any form yet. -/
def ofFault (fault : Fault) (place : Place) : LoweringError := ⟨fault, place, none⟩

/-- A tree whose kind has no lowering. -/
def unknownVariant (s : Source) : LoweringError := ofFault (.unknownVariant s.variant) s.place

/-- A tree that cannot stand where `form` wants something else. -/
def malformed (form what : String) (found : Source) : LoweringError :=
  ofFault (.malformed form what found) found.place

/-! ### What is reported -/

/-- The form an error is attributed to: that of the fault, or else the one around it. -/
def form (e : LoweringError) : Option String := e.fault.form <|> e.enclosing

/-- Attribute an error to the form around it, unless it is attributed to a form already. -/
def inside (form : String) (e : LoweringError) : LoweringError :=
  match e.form with
  | some _ => e
  | none => { e with enclosing := some form }

def kind (e : LoweringError) : FaultKind := e.fault.kind

/-- An operator that is missing from its table is critical; every other error is an error. -/
def level (e : LoweringError) : Level :=
  if e.kind = .unboundOperator then .critical else .error

/-- The message of the fault, and where it was found if that is not part of the fault. -/
def message (e : LoweringError) : String :=
  match e.enclosing with
  | some form => e.fault.message ++ " Found inside `" ++ form ++ "`."
  | none => e.fault.message

/-- An error as a report. -/
def report (e : LoweringError) : Report := ⟨e.level, e.message, e.fault.issuer, e.place⟩

def text (e : LoweringError) : String := e.kind.text ++ ": " ++ e.report.located

end LoweringError

end FormLower
