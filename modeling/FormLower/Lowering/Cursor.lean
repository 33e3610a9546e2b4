import FormLower.Lowering.Error

/-! # Reading arguments in order

A form may read its first arguments as they stand: as names to bind, as a list of parameters, as a
text to keep.  A cursor is a form's argument list cut in two, what has been taken and what is left;
a reading takes arguments from the left part of the rest, and fails with an error that names the
form.  Each argument carries along what lowering it would give, so that the form can decide which
of its arguments are lowered at all. -/

namespace FormLower

/-- A form's name and the place of the call it stands in. -/
structure Site where
  form : String
  place : Place
deriving DecidableEq, Repr

namespace Site

/-- The form has too few arguments. -/
def arity (site : Site) (expected found : Nat) : LoweringError :=
  .ofFault (.arity site.form expected found) site.place

/-- The form is no operator. -/
def unboundOperator (site : Site) : LoweringError :=
  .ofFault (.unboundOperator site.form) site.place

/-- A sequence stands where the form needs one expression. -/
def unexpectedSequence (site : Site) : LoweringError :=
  .ofFault (.unexpectedSequence site.form) site.place

end Site

/-- An argument of a form, with something computed from it. -/
structure Argument (ρ : Type) where
  source : Source
  outcome : ρ

/-- The arguments of a form that have been taken and those that are left, both in their order. -/
structure Cursor (ρ : Type) where
  site : Site
  taken : List (Argument ρ)
  rest : List (Argument ρ)

namespace Cursor

variable {ρ : Type}

/-- The cursor before the first argument. -/
def start (site : Site) (args : List (Argument ρ)) : Cursor ρ := ⟨site, [], args⟩

/-- All arguments, whether taken or left. -/
def args (c : Cursor ρ) : List (Argument ρ) := c.taken ++ c.rest

/-- The next argument, which stays where it is. -/
def peek (c : Cursor ρ) : Option (Argument ρ) := c.rest.head?

/-- The error of a form that needs so many arguments. -/
def shortage (c : Cursor ρ) (needed : Nat) : LoweringError :=
  c.site.arity needed c.args.length

/-- How many arguments a form needs that needs `count` more, counted in a machine word: a sum that
is too large for one begins again from zero. -/
def needed (c : Cursor ρ) (count : UInt64) : UInt64 := .ofNat c.taken.length + count

/-- The error of an argument that is not what the form wants. -/
def malformed (c : Cursor ρ) (what : String) (found : Source) : LoweringError :=
  .malformed c.site.form what found

end Cursor

/-- A step that reads arguments: it gives a value or fails, and leaves the cursor somewhere. -/
def Reading (ρ α : Type) : Type := Cursor ρ → Except LoweringError α × Cursor ρ

namespace Reading

variable {ρ α β : Type}

instance : Monad (Reading ρ) where
  pure a := fun c => (.ok a, c)
  bind x f := fun c =>
    match x c with
    | (.ok a, c') => f a c'
    | (.error e, c') => (.error e, c')

/-- Fail with an error that depends on where the cursor stands. -/
def fail (e : Cursor ρ → LoweringError) : Reading ρ α := fun c => (.error (e c), c)

def next : Reading ρ (Argument ρ) := fun c =>
  match c.rest with
  -- One more than the arguments there are, which are far fewer than a word can count.
  | [] => (.error (c.shortage (c.taken.length + 1)), c)
  | a :: rest => (.ok a, { c with taken := c.taken ++ [a], rest := rest })

/-- Take the next argument if it is as wanted. -/
def nextIf (wanted : Source → Bool) : Reading ρ (Option (Argument ρ)) := fun c =>
  match c.rest with
  | [] => (.ok none, c)
  | a :: rest =>
    if wanted a.source then (.ok (some a), { c with taken := c.taken ++ [a], rest := rest })
    else (.ok none, c)

/-- Fail unless at least `count` arguments are left. -/
def require (count : UInt64) : Reading ρ Unit := fun c =>
  if c.rest.length < count.toNat then (.error (c.shortage (c.needed count).toNat), c)
  else (.ok (), c)

/-- A name and the tree it was read from. -/
abbrev Named := String × Source

/-- The name that a tree stands for where `what` is wanted. -/
def asName (what : String) (s : Source) : Reading ρ Named :=
  match s.rawText? with
  | some name => pure (name, s)
  | none => fail fun c => c.malformed what s

/-- The names that several trees stand for. -/
def asNames (what : String) : List Source → Reading ρ (List Named)
  | [] => pure []
  | s :: ss => do
    let name ← asName what s
    let names ← asNames what ss
    pure (name :: names)

def name (what : String) : Reading ρ Named := do
  let a ← next
  asName what a.source

def nameList (what : String) : Reading ρ (List Named) := do
  let a ← next
  match a.source with
  | .list elements _ => asNames what elements
  | s => fail fun c => c.malformed what s

/-- Read from the arguments of a form; the arguments that are left are given back. -/
def run (x : Reading ρ α) (site : Site) (args : List (Argument ρ)) :
    Except LoweringError (α × List (Argument ρ)) :=
  match x (.start site args) with
  | (.ok a, c) => .ok (a, c.rest)
  | (.error e, _) => .error e

end Reading

end FormLower
