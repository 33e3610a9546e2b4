import FormLower.Lowering

/-! # Handlers

The tables of forms name the forms of the language, so that they can be compared and shown.  What
lowering asks of an entry is only that it can be applied: a structural one to a call, its arguments
and what lowering each of them gives, a special one to a call and its lowered arguments.  Here
tables hold any functions of these types, such as one that ignores whatever it is given.  Tables of
forms are the case in which every function lowers the calls of a form. -/

namespace FormLower

/-- A function that lowers a call and decides itself which arguments take part. -/
abbrev StructuralHandler := Site → List (Argument (Lowering Lowered)) → Lowering Lowered

/-- A function that lowers a call, given its lowered arguments. -/
abbrev SpecialHandler := Site → List Lowered → Lowering Lowered

/-- The functions that a program may use for the calls of its forms. -/
structure Handlers where
  structural : Table StructuralHandler
  special : Table SpecialHandler

namespace Handlers

/-- What a head stands for. -/
inductive Meaning where
  | structural (handler : StructuralHandler)
  | special (handler : SpecialHandler)
  | call

/-- What a head stands for: a structural handler if it names one, else a special one if it names
one, else a function to call. -/
def meaning (handlers : Handlers) (head : String) : Meaning :=
  match handlers.structural.get? head with
  | some handler => .structural handler
  | none =>
    match handlers.special.get? head with
    | some handler => .special handler
    | none => .call

/-- Lower a call, given what lowering each of its arguments gives. -/
def lowerCall (handlers : Handlers) (site : Site) (args : List (Argument (Lowering Lowered))) :
    Lowering Lowered :=
  match handlers.meaning site.form with
  | .structural handler => do
    Run.note (.structural site.form)
    handler site args
  | .special handler => do
    let children ← Forms.lowerChildren site.form args
    Run.note (.special site.form children.length)
    handler site children
  | .call => do
    let children ← Forms.lowerChildren site.form args
    buildCall site children

mutual

def lower (handlers : Handlers) : Source → Lowering Lowered
  | .leaf value place => pure (.single (value.lower place.location))
  | .call head args place => handlers.lowerCall ⟨head, place⟩ (handlers.lowerArgs args)
  | .list elements place => .fail (.unknownVariant (.list elements place))

/-- What lowering each of several trees gives. -/
def lowerArgs (handlers : Handlers) : List Source → List (Argument (Lowering Lowered))
  | [] => []
  | s :: ss => ⟨s, handlers.lower s⟩ :: handlers.lowerArgs ss

end

theorem lowerArgs_eq_map (handlers : Handlers) :
    ∀ ss : List Source, handlers.lowerArgs ss = ss.map fun s => ⟨s, handlers.lower s⟩
  | [] => rfl
  | s :: ss => by rw [lowerArgs, lowerArgs_eq_map handlers ss, List.map_cons]

end Handlers

/-! ### The forms of the language -/

/-- The function that lowers the calls of a structural form. -/
def StructuralForm.handler (form : StructuralForm) : StructuralHandler :=
  fun site args => form.lower site args

/-- The function that lowers the calls of a special form. -/
def SpecialForm.handler (form : SpecialForm) : SpecialHandler :=
  fun site children => form.build site children

/-- Tables of forms as tables of the functions that lower their calls. -/
def Forms.handlers (forms : Forms) : Handlers :=
  ⟨forms.structural.map StructuralForm.handler, forms.special.map SpecialForm.handler⟩

end FormLower
