import FormLower.Target
import FormLower.Text.Quoted

/-! # The text of a target tree

A tree on one line.  Operands that are operations themselves stand in parentheses, so that the
nesting of operations can be read off; of a statement with a body only the first line is given. -/

namespace FormLower
namespace Target

/-- Whether a tree is an operation, which as an operand needs parentheses. -/
def isOperation : Target → Bool
  | .binary _ _ _ _ => true
  | .compare _ _ _ _ => true
  | _ => false

/-- A text, in parentheses if asked for. -/
def enclose (parens : Bool) (s : String) : String :=
  if parens then "(" ++ s ++ ")" else s

/-- A comparison from its first operand on. -/
def chainText (first : String) (ops : List Comparison) (operands : List String) : String :=
  (ops.zip operands).foldl (fun s link => s ++ " " ++ link.1.text ++ " " ++ link.2) first

/-- Texts with commas between them. -/
def commaText (ts : List String) : String := ", ".intercalate ts

mutual

/-- A tree on one line. -/
def text : Target → String
  | .name id _ _ => id
  | .string value _ => quote value
  | .number value _ => value.text
  | .call func args _ => func.text ++ "(" ++ commaText (texts args) ++ ")"
  | .binary left op right _ =>
    enclose left.isOperation left.text ++ " " ++ op.symbol ++ " " ++
      enclose right.isOperation right.text
  | .compare left ops comparators _ =>
    chainText (enclose left.isOperation left.text) ops (operandTexts comparators)
  | .branch test _ _ _ => "if " ++ test.text ++ ": ..."
  | .ret value _ => "return " ++ value.text
  | .assign target value _ => target.text ++ " = " ++ value.text
  | .function id params _ _ => "def " ++ id ++ "(" ++ commaText (texts params) ++ "): ..."
  | .print values _ _ => "print " ++ commaText (texts values)
  | .statement value _ => value.text

def texts : List Target → List String
  | [] => []
  | t :: ts => t.text :: texts ts

/-- Several trees as operands. -/
def operandTexts : List Target → List String
  | [] => []
  | t :: ts => enclose t.isOperation t.text :: operandTexts ts

end

theorem texts_eq_map : ∀ ts : List Target, texts ts = ts.map text
  | [] => rfl
  | t :: ts => by rw [texts, texts_eq_map ts, List.map_cons]

/-- A tree as an operand of an operation. -/
def operandText (t : Target) : String := enclose t.isOperation t.text

theorem operandTexts_eq_map : ∀ ts : List Target, operandTexts ts = ts.map operandText
  | [] => rfl
  | t :: ts => by rw [operandTexts, operandTexts_eq_map ts, List.map_cons, operandText]

end Target
end FormLower
