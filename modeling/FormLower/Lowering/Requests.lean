import FormLower.Lowering.Cursor
import FormLower.Lowering.Table

/-! # Requests

Tables and cursors are used from outside by one request after the other.  Each request is answered
and may change what it is put to; a request that fails is answered with its error, and the requests
after it are served all the same. -/

namespace FormLower

/-- Serve several requests one after the other: their answers, and what is left in the end. -/
def serveAll {σ ι α : Type} (serve : σ → ι → α × σ) (s : σ) : List ι → List α × σ
  | [] => ([], s)
  | r :: rs =>
    let (answer, s') := serve s r
    let (answers, last) := serveAll serve s' rs
    (answer :: answers, last)

/-- A request after others is put to what they leave. -/
theorem serveAll_concat {σ ι α : Type} (serve : σ → ι → α × σ) (s : σ) (rs : List ι) (r : ι) :
    serveAll serve s (rs ++ [r]) =
      ((serveAll serve s rs).1 ++ [(serve (serveAll serve s rs).2 r).1],
        (serve (serveAll serve s rs).2 r).2) := by
  induction rs generalizing s with
  | nil => rfl
  | cons q rs ih => simp only [List.cons_append, serveAll, ih]

/-! ### Tables -/

namespace Table

/-- What can be asked of a table. -/
inductive Request (α : Type) where
  | register (name : String) (entry : α)
  | unregister (name : String)
  | get (name : String)
  | contains (name : String)
deriving DecidableEq

/-- What a table answers: the entry of a name, if it has one, or whether it has one. -/
inductive Answer (α : Type) where
  | entry (entry : Option α)
  | held (held : Bool)
deriving DecidableEq

variable {α : Type}

/-- Serve a request.  Whoever gives a name an entry or takes it away is told the entry it had. -/
def serve (t : Table α) : Request α → Answer α × Table α
  | .register name entry => (.entry (t.get? name), t.insert name entry)
  | .unregister name => (.entry (t.get? name), t.erase name)
  | .get name => (.entry (t.get? name), t)
  | .contains name => (.held (t.contains name), t)

end Table

/-! ### Cursors -/

namespace Cursor

/-- What can be asked of a cursor. -/
inductive Request where
  | peek
  | next
  | nextIf (wanted : Source → Bool)
  | name (what : String)
  | nameList (what : String)
  | require (count : UInt64)
  | remaining

/-- What a cursor answers. -/
inductive Answer (ρ : Type) where
  /-- The next argument, which stays where it is. -/
  | seen (next : Option (Argument ρ))
  /-- An argument that is taken. -/
  | given (a : Argument ρ)
  /-- The next argument is not as wanted, or there is none. -/
  | declined
  | named (name : Reading.Named)
  | namedAll (names : List Reading.Named)
  /-- There are as many arguments as required. -/
  | enough
  | remaining (rest : List (Argument ρ))
  | failed (e : LoweringError)
  /-- No answer: the sum that the error should name is too large for a machine word. -/
  | panicked

/-- What becomes of a sum that is too large for a machine word, which is decided when a program is
built: it begins again from zero, or the program panics. -/
inductive Overflow where
  | wraps
  | panics
deriving DecidableEq

variable {ρ α : Type}

/-- Whether fewer than `count` arguments are left, and how many are needed in all is too large for
a machine word. -/
def Overflows (c : Cursor ρ) (count : UInt64) : Prop :=
  c.rest.length < count.toNat ∧ UInt64.size ≤ c.taken.length + count.toNat

instance (c : Cursor ρ) (count : UInt64) : Decidable (c.Overflows count) :=
  inferInstanceAs (Decidable (_ ∧ _))

/-- Read from a cursor and answer with what was read. -/
def answered (c : Cursor ρ) (x : Reading ρ α) (answer : α → Answer ρ) : Answer ρ × Cursor ρ :=
  match x c with
  | (.ok a, c') => (answer a, c')
  | (.error e, c') => (.failed e, c')

/-- The answer to a request for an argument that need not be there. -/
def Answer.ofOption : Option (Argument ρ) → Answer ρ
  | some a => .given a
  | none => .declined

/-- Serve a request.  One that panics is given up and leaves the cursor as it was. -/
def serve (overflow : Overflow) (c : Cursor ρ) : Request → Answer ρ × Cursor ρ
  | .peek => (.seen c.peek, c)
  | .next => c.answered Reading.next .given
  | .nextIf wanted => c.answered (Reading.nextIf wanted) .ofOption
  | .name what => c.answered (Reading.name what) .named
  | .nameList what => c.answered (Reading.nameList what) .namedAll
  | .require count =>
    if overflow = .panics ∧ c.Overflows count then (.panicked, c)
    else c.answered (Reading.require count) fun _ => .enough
  | .remaining => (.remaining c.rest, c)

end Cursor

end FormLower
