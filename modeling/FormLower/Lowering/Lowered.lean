import FormLower.Lowering.Cursor
import FormLower.Lowering.Run
import FormLower.Target

/-! # What lowering gives

A source tree is lowered to one target tree, or to a sequence of statements that the tree around it
takes up. -/

namespace FormLower

/-- What a source tree is lowered to. -/
inductive Lowered where
  | single (tree : Target)
  | sequence (statements : List Target)

/-- A run of the lowering. -/
abbrev Lowering (α : Type) : Type := Run LoweringError α

namespace Lowered

/-- The statements that something lowered stands for as the body of a block. -/
def statements : Lowered → List Target
  | .single tree => [tree]
  | .sequence statements => statements

/-- The one expression that something lowered stands for as an operand of a form. -/
def expression (site : Site) : Lowered → Lowering Target
  | .single tree => pure tree
  | .sequence _ => .fail site.unexpectedSequence

/-- The expressions that several lowered trees stand for. -/
def expressions (site : Site) (children : List Lowered) : Lowering (List Target) :=
  Run.all (children.map (expression site))

end Lowered

namespace Run

/-- Attribute the failure of a run to the form around it, if it names no form. -/
def inside {α : Type} (form : String) (x : Lowering α) : Lowering α :=
  x.mapError (LoweringError.inside form)

end Run

namespace Argument

/-- An argument lowered, with its failure attributed to the form. -/
def lowered (form : String) (a : Argument (Lowering Lowered)) : Lowering Lowered :=
  a.outcome.inside form

/-- An argument lowered to the one expression that the form needs. -/
def expression (form : String) (a : Argument (Lowering Lowered)) : Lowering Target := do
  let result ← a.lowered form
  result.expression ⟨form, a.source.place⟩

end Argument

/-! ### Leaves -/

/-- The identifiers of the truth values. -/
def boolName (b : Bool) : String := if b then "True" else "False"

/-- A leaf lowered: a symbol reads the variable of that name, and so does a truth value. -/
def Leaf.lower (at? : Option Location) : Leaf → Target
  | .symbol name => .name name .load at?
  | .string value => .string value at?
  | .number value => .number value at?
  | .bool value => .name (boolName value) .load at?

end FormLower
