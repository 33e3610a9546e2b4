import FormLower.Target.Listing

/-! # Programs

A program is a named sequence of top-level statements.  Its name stands for a file where a
statement has no location of its own. -/

namespace FormLower

/-- A target program. -/
structure Program where
  name : String
  body : List Target

namespace Program

/-- How many top-level statements a program has. -/
def size (p : Program) : Nat := p.body.length

/-- The location of top-level statements that have none. -/
def root (p : Program) : Location := ⟨p.name, 1, 1⟩

/-- Give every tree without a location the one of the nearest tree above that has one, or the root
location. -/
def located (p : Program) : Program := ⟨p.name, p.body.map (Target.inherit p.root)⟩

def isLocated (p : Program) : Bool := p.body.all Target.isLocated

/-- Apply `g` to the identifier of every name in a program. -/
def rename (g : String → String) (p : Program) : Program := ⟨p.name, p.body.map (Target.rename g)⟩

/-- The lines of a listing: a header, then the statements. -/
def lines (p : Program) : List String :=
  ("# module " ++ p.name) :: p.body.flatMap (Target.lines 0)

def listing (p : Program) : String := String.join (p.lines.map (· ++ "\n"))

end Program

end FormLower
