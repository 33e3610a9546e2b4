import FormLower.Target.Text

/-! # Listings

A statement as the lines of a listing.  The lines of a block are indented by one step, and a block
without statements is the line `pass`. -/

namespace FormLower
namespace Target

/-- The blanks before a line at a depth of nesting: four for every step. -/
def indentation (depth : Nat) : String := String.ofList (List.replicate (4 * depth) ' ')

def line (depth : Nat) (s : String) : String := indentation depth ++ s

/-- The lines of a block, given those of its statements. -/
def block (depth : Nat) (statements : List String) : List String :=
  if statements.isEmpty then [line depth "pass"] else statements

mutual

/-- The lines of a statement. -/
def lines (depth : Nat) : Target → List String
  | .branch test body orelse _ =>
    line depth ("if " ++ test.text ++ ":") :: block (depth + 1) (allLines (depth + 1) body) ++
      if orelse.isEmpty then []
      else line depth "else:" :: block (depth + 1) (allLines (depth + 1) orelse)
  | .function id params body _ =>
    line depth ("def " ++ id ++ "(" ++ commaText (texts params) ++ "):") ::
      block (depth + 1) (allLines (depth + 1) body)
  | .print values newline l =>
    [line depth ((Target.print values newline l).text ++ if newline then "" else ",")]
  | t => [line depth t.text]

def allLines (depth : Nat) : List Target → List String
  | [] => []
  | t :: ts => t.lines depth ++ allLines depth ts

end

theorem allLines_eq_flatMap (depth : Nat) :
    ∀ ts : List Target, allLines depth ts = ts.flatMap (lines depth)
  | [] => rfl
  | t :: ts => by rw [allLines, allLines_eq_flatMap depth ts, List.flatMap_cons]

end Target
end FormLower
