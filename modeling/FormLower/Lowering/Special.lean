import FormLower.Lowering.Lowered

/-! # Special forms

Forms whose arguments are all lowered first and whose result is no call: output, operations,
conditionals, sequences and returns. -/

namespace FormLower

/-- The special forms. -/
inductive SpecialForm where
  | print
  | arithmetic
  | comparison
  | condition
  | sequence
  | ret
  /-- A form that drops its arguments once they are lowered. -/
  | skip
deriving DecidableEq, Repr

namespace SpecialForm

/-- `(print a b …)` writes the values and ends the line. -/
def buildPrint (site : Site) (children : List Lowered) : Lowering Lowered := do
  let values ← Lowered.expressions site children
  pure (.single (.print values true site.place.location))

/-- `(+ a b c)` is `(a + b) + c`, and so for every arithmetic operator. -/
def buildArithmetic (site : Site) (children : List Lowered) : Lowering Lowered :=
  match Arithmetic.ofSymbol? site.form, children with
  | none, _ => .fail site.unboundOperator
  | some op, first :: second :: others => do
    let left ← first.expression site
    let rights ← Lowered.expressions site (second :: others)
    pure (.single (rights.foldl (fun l r => .binary l op r site.place.location) left))
  | some _, few => .fail (site.arity 2 few.length)

/-- `(< a b c)` is the chain `a < b < c`, and so for every comparison operator. -/
def buildComparison (site : Site) (children : List Lowered) : Lowering Lowered :=
  match Comparison.ofSymbol? site.form, children with
  | none, _ => .fail site.unboundOperator
  | some op, first :: second :: others => do
    let left ← first.expression site
    let comparators ← Lowered.expressions site (second :: others)
    pure (.single (.compare left (List.replicate comparators.length op) comparators
      site.place.location))
  | some _, few => .fail (site.arity 2 few.length)

/-- `(if test then else)`; arguments after the second branch are dropped. -/
def buildCondition (site : Site) : List Lowered → Lowering Lowered
  | test :: body :: orelse :: extra => do
    Run.noteCount .extraBranches extra.length
    let test ← test.expression site
    pure (.single (.branch test body.statements orelse.statements site.place.location))
  | few => .fail (site.arity 3 few.length)

/-- `(do a b …)` is the sequence of all its statements. -/
def buildSequence (children : List Lowered) : Lowering Lowered :=
  pure (.sequence (children.flatMap Lowered.statements))

/-- `(return … value)` returns the last value; the values before it are dropped. -/
def buildReturn (site : Site) (children : List Lowered) : Lowering Lowered :=
  match children.getLast? with
  | none => .fail (site.arity 1 0)
  | some last => do
    Run.noteCount .discardedValues (children.length - 1)
    let value ← last.expression site
    pure (.single (.ret value site.place.location))

def build (site : Site) (children : List Lowered) : SpecialForm → Lowering Lowered
  | .print => buildPrint site children
  | .arithmetic => buildArithmetic site children
  | .comparison => buildComparison site children
  | .condition => buildCondition site children
  | .sequence => buildSequence children
  | .ret => buildReturn site children
  | .skip => pure (.sequence [])

end SpecialForm

/-- A call of anything that is no form: the head read as a name, applied to the arguments. -/
def buildCall (site : Site) (children : List Lowered) : Lowering Lowered := do
  let args ← Lowered.expressions site children
  pure (.single (.call (.name site.form .load site.place.location) args site.place.location))

end FormLower
