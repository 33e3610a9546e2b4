import FormLower.Lowering.Lowered

/-! # Structural forms

Forms whose first arguments are names to bind and no expressions.  They read those arguments as
they stand and lower only the rest: `(def name value)` assigns, and
`(defn name [parameter …] "text" body …)` defines a function, where the text may be missing and of
several bodies the last one counts. -/

namespace FormLower

/-- The structural forms. -/
inductive StructuralForm where
  | define
  | function
  /-- A form that drops whatever it is given. -/
  | skip
deriving DecidableEq, Repr

namespace StructuralForm

variable {ρ : Type}

/-! ### The arguments of a definition -/

/-- A name and the argument whose value it gets. -/
structure Binding (ρ : Type) where
  name : Reading.Named
  value : Argument ρ

/-- Read the name and the value of a definition. -/
def binding : Reading ρ (Binding ρ) := do
  let name ← Reading.name "a symbol to bind"
  let value ← Reading.next
  pure ⟨name, value⟩

/-- The head of a function: its name, its parameters and its documentation. -/
structure Signature where
  name : Reading.Named
  params : List Reading.Named
  doc : Option Source

/-- Read the head of a function.  A body has to follow the parameters, if only a string. -/
def signature : Reading ρ Signature := do
  let name ← Reading.name "a function name"
  Reading.require 2
  let params ← Reading.nameList "a [parameter] list"
  let doc ← Reading.nextIf Source.isString
  pure ⟨name, params, doc.map Argument.source⟩

/-! ### Lowering -/

/-- A name to bind as a target tree. -/
def bound (use : Use) (name : Reading.Named) : Target := .name name.1 use name.2.location

/-- The documentation of a function as a statement. -/
def docStatement (doc : Source) : Target :=
  .statement (.string (doc.rawText?.getD "") doc.location) doc.location

/-- `(def name value)` assigns the value to the name; arguments after the value are dropped. -/
def lowerDefine (site : Site) (args : List (Argument (Lowering Lowered))) : Lowering Lowered := do
  let (b, extra) ← Run.ofExcept (binding.run site args)
  Run.noteCount (.extraValues b.name.1) extra.length
  let value ← b.value.expression site.form
  pure (.single (.assign (bound .store b.name) value site.place.location))

/-- `(defn name [parameter …] "text" body …)` defines a function.  Every body is lowered and the
last one kept; documentation alone is no body. -/
def lowerFunction (site : Site) (args : List (Argument (Lowering Lowered))) :
    Lowering Lowered := do
  let (s, bodies) ← Run.ofExcept (signature.run site args)
  match bodies.getLast? with
  | none => Run.fail (site.arity (args.length + 1) args.length)
  | some last => do
    let earlier := bodies.dropLast
    let _ ← Run.all (earlier.map (Argument.lowered site.form))
    Run.noteCount (.droppedBodies s.name.1) earlier.length
    let body ← last.lowered site.form
    pure (.single (.function s.name.1 (s.params.map (bound .param))
      ((s.doc.map docStatement).toList ++ body.statements) site.place.location))

def lower (site : Site) (args : List (Argument (Lowering Lowered))) :
    StructuralForm → Lowering Lowered
  | .define => lowerDefine site args
  | .function => lowerFunction site args
  | .skip => pure (.sequence [])

end StructuralForm

end FormLower
