import FormLower.Lowering.Special
import FormLower.Lowering.Structural
import FormLower.Lowering.Table

/-! # Tables of forms

Which heads are forms is data: a table of structural forms and a table of special forms.  A head in
the first table hides the same head in the second. -/

namespace FormLower

/-- The forms that a program may use. -/
structure Forms where
  structural : Table StructuralForm
  special : Table SpecialForm

/-- What a head stands for. -/
inductive Meaning where
  | structural (form : StructuralForm)
  | special (form : SpecialForm)
  | call
deriving DecidableEq, Repr

namespace Forms

/-- The definitions. -/
def defaultStructural : Table StructuralForm :=
  .ofList [("def", .define), ("defn", .function)]

/-- Output, the operators, conditionals, sequences and returns. -/
def defaultSpecial : Table SpecialForm :=
  .ofList <| [("print", .print)] ++
    Arithmetic.all.map (fun op => (op.symbol, .arithmetic)) ++
    Comparison.all.map (fun op => (op.symbol, .comparison)) ++
    [("if", .condition), ("do", .sequence), ("return", .ret)]

/-- The forms of the language. -/
def default : Forms := ⟨defaultStructural, defaultSpecial⟩

/-- What a head stands for: a structural form if it names one, else a special form if it names one,
else a function to call. -/
def meaning (forms : Forms) (head : String) : Meaning :=
  match forms.structural.get? head with
  | some form => .structural form
  | none =>
    match forms.special.get? head with
    | some form => .special form
    | none => .call

def addStructural (forms : Forms) (name : String) (form : StructuralForm) : Forms :=
  { forms with structural := forms.structural.insert name form }

def addSpecial (forms : Forms) (name : String) (form : SpecialForm) : Forms :=
  { forms with special := forms.special.insert name form }

def remove (forms : Forms) (name : String) : Forms :=
  ⟨forms.structural.erase name, forms.special.erase name⟩

end Forms

end FormLower
