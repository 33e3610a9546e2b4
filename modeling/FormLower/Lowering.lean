import FormLower.Lowering.Forms
import FormLower.Program

/-! # Lowering

Source trees are lowered from their leaves upwards.  The arguments of a call are handed to what its
head stands for together with what lowering each of them gives; a structural form decides for
itself which of them take part, any other head takes all of them, from left to right. -/

namespace FormLower

/-- The way in which a tree is lowered. -/
inductive Strategy where
  | literal (value : Leaf)
  | expression (head : String) (args : List Source)

/-- The way in which a tree is lowered; a list has none. -/
def Source.strategy (s : Source) : Except LoweringError Strategy :=
  match s with
  | .leaf value _ => .ok (.literal value)
  | .call head args _ => .ok (.expression head args)
  | .list _ _ => .error (.unknownVariant s)

/-- Lower a leaf; no other tree is a literal. -/
def Source.lowerLiteral (s : Source) : Except LoweringError Target :=
  match s with
  | .leaf value place => .ok (value.lower place.location)
  | s => .error (.unknownVariant s)

namespace Forms

/-- Lower every argument of a form, from left to right. -/
def lowerChildren (form : String) (args : List (Argument (Lowering Lowered))) :
    Lowering (List Lowered) :=
  Run.all (args.map (Argument.lowered form))

/-- Lower a call, given what lowering each of its arguments gives. -/
def lowerCall (forms : Forms) (site : Site) (args : List (Argument (Lowering Lowered))) :
    Lowering Lowered :=
  match forms.meaning site.form with
  | .structural form => do
    Run.note (.structural site.form)
    form.lower site args
  | .special form => do
    let children ← lowerChildren site.form args
    Run.note (.special site.form children.length)
    form.build site children
  | .call => do
    let children ← lowerChildren site.form args
    buildCall site children

mutual

def lower (forms : Forms) : Source → Lowering Lowered
  | .leaf value place => pure (.single (value.lower place.location))
  | .call head args place => forms.lowerCall ⟨head, place⟩ (forms.lowerArgs args)
  | .list elements place => .fail (.unknownVariant (.list elements place))

/-- What lowering each of several trees gives. -/
def lowerArgs (forms : Forms) : List Source → List (Argument (Lowering Lowered))
  | [] => []
  | s :: ss => ⟨s, forms.lower s⟩ :: forms.lowerArgs ss

end

theorem lowerArgs_eq_map (forms : Forms) :
    ∀ ss : List Source, forms.lowerArgs ss = ss.map fun s => ⟨s, forms.lower s⟩
  | [] => rfl
  | s :: ss => by rw [lowerArgs, lowerArgs_eq_map forms ss, List.map_cons]

/-- Lower a tree that stands where `form` needs one expression. -/
def lowerExpression (forms : Forms) (s : Source) (form : String) : Lowering Target :=
  Argument.expression form ⟨s, forms.lower s⟩

/-- Lower the arguments of a call; leaves and lists have none. -/
def lowerArguments (forms : Forms) (s : Source) : Lowering (List Lowered) :=
  lowerChildren (s.head?.getD "") (forms.lowerArgs s.args)

/-! ### Programs -/

/-- The statements of several trees, of which a sequence gives all of its statements. -/
def lowerForest (forms : Forms) (forest : List Source) : Lowering (List Target) := do
  let parts ← Run.all (forest.map forms.lower)
  pure (parts.flatMap Lowered.statements)

/-- Lower several trees to a program in which every tree has a location. -/
def assemble (forms : Forms) (name : String) (forest : List Source) : Lowering Program := do
  let body ← forms.lowerForest forest
  let program := (Program.mk name body).located
  Run.note (.assembled name forest.length program.size)
  pure program

end Forms

/-- Lower several trees to a program with the forms of the language. -/
def compile (name : String) (forest : List Source) : Lowering Program :=
  Forms.default.assemble name forest

end FormLower
