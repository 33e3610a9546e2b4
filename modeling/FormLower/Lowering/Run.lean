/-! # Runs that leave notices

Lowering tells what it does and what it drops as it goes along.  A run is the list of notices it
left and its result; a failing run keeps the notices it left before it failed. -/

namespace FormLower

/-- How important a notice is. -/
inductive Severity where
  | error
  | warn
  | info
  | debug
  | trace
deriving DecidableEq, Repr

namespace Severity

def text : Severity → String
  | .error => "ERROR"
  | .warn => "WARN"
  | .info => "INFO"
  | .debug => "DEBUG"
  | .trace => "TRACE"

/-- How many severities are graver. -/
def rank : Severity → Nat
  | .error => 0
  | .warn => 1
  | .info => 2
  | .debug => 3
  | .trace => 4

/-- Whether a notice of severity `s` is at least as grave as `limit`. -/
def within (limit s : Severity) : Bool := s.rank ≤ limit.rank

end Severity

/-- What a run tells about itself. -/
inductive Notice where
  /-- A text was read. -/
  | read (forms : Nat) (file : String)
  /-- A structural form is about to be lowered. -/
  | structural (head : String)
  /-- A special form is about to be built from its lowered arguments. -/
  | special (head : String) (children : Nat)
  /-- A conditional has arguments after its second branch. -/
  | extraBranches (count : Nat)
  /-- A return has values before the last one. -/
  | discardedValues (count : Nat)
  /-- A definition has arguments after its value. -/
  | extraValues (name : String) (count : Nat)
  /-- A function has body forms before the last one. -/
  | droppedBodies (name : String) (count : Nat)
  /-- A program was assembled. -/
  | assembled (name : String) (forms statements : Nat)
deriving DecidableEq, Repr

namespace Notice

/-- Whatever is dropped is worth a warning; the rest tells what goes on. -/
def severity : Notice → Severity
  | .read _ _ => .info
  | .structural _ => .debug
  | .special _ _ => .debug
  | .extraBranches _ => .warn
  | .discardedValues _ => .warn
  | .extraValues _ _ => .warn
  | .droppedBodies _ _ => .warn
  | .assembled _ _ _ => .debug

def text : Notice → String
  | .read forms file => "read " ++ toString forms ++ " top-level form(s) from " ++ file
  | .structural head => "lowering `" ++ head ++ "` as a structural form"
  | .special head children =>
    "lowering `" ++ head ++ "` as a special form (" ++ toString children ++ " children)"
  | .extraBranches count => "`if` ignores " ++ toString count ++ " extra argument(s)"
  | .discardedValues count => "`return` discards " ++ toString count ++ " leading argument(s)"
  | .extraValues name count =>
    "`def " ++ name ++ "` ignores " ++ toString count ++ " extra argument(s)"
  | .droppedBodies name count =>
    "`defn " ++ name ++ "` keeps only its last body form, dropping " ++ toString count
  | .assembled name forms statements =>
    "assembled `" ++ name ++ "`: " ++ toString forms ++ " top-level form(s) -> " ++
      toString statements ++ " statement(s)"

end Notice

/-- The notices of a run and its result. -/
structure Run (ε α : Type) where
  notices : List Notice
  result : Except ε α

namespace Run

variable {ε ε' α β : Type}

/-- The run that gives a value and leaves no notice. -/
protected def pure (a : α) : Run ε α := ⟨[], .ok a⟩

/-- Go on with the value of a run; a failing run is not gone on with. -/
protected def bind (x : Run ε α) (f : α → Run ε β) : Run ε β :=
  match x.result with
  | .error e => ⟨x.notices, .error e⟩
  | .ok a => ⟨x.notices ++ (f a).notices, (f a).result⟩

instance : Monad (Run ε) where
  pure := Run.pure
  bind := Run.bind

def fail (e : ε) : Run ε α := ⟨[], .error e⟩

def note (n : Notice) : Run ε Unit := ⟨[n], .ok ()⟩

/-- The run that leaves a notice of a count, unless there is nothing to count. -/
def noteCount (n : Nat → Notice) (count : Nat) : Run ε Unit :=
  if count = 0 then Run.pure () else note (n count)

/-- A result without notices. -/
def ofExcept (x : Except ε α) : Run ε α := ⟨[], x⟩

/-- Change the error of a failing run. -/
def mapError (f : ε → ε') (x : Run ε α) : Run ε' α := ⟨x.notices, x.result.mapError f⟩

/-- Run one after the other and collect the values, up to the first failure. -/
def all : List (Run ε α) → Run ε (List α)
  | [] => pure []
  | x :: xs => do
    let a ← x
    let as ← all xs
    pure (a :: as)

end Run

end FormLower
