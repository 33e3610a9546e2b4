import FormLower.Number
import FormLower.Place
import FormLower.Target.Operator

/-! # Target trees

The imperative program that a source text is lowered to.  Expressions and statements are one type,
since a statement may stand where the surface language allows any form; every tree carries the
location it came from, if it has one. -/

namespace FormLower

/-- A tree of the target program. -/
inductive Target where
  | name (id : String) (use : Use) (location : Option Location)
  | string (value : String) (location : Option Location)
  | number (value : Number) (location : Option Location)
  | call (func : Target) (args : List Target) (location : Option Location)
  | binary (left : Target) (op : Arithmetic) (right : Target) (location : Option Location)
  | compare (left : Target) (ops : List Comparison) (comparators : List Target)
      (location : Option Location)
  | branch (test : Target) (body orelse : List Target) (location : Option Location)
  | ret (value : Target) (location : Option Location)
  | assign (target value : Target) (location : Option Location)
  | function (id : String) (params body : List Target) (location : Option Location)
  | print (values : List Target) (newline : Bool) (location : Option Location)
  | statement (value : Target) (location : Option Location)

namespace Target

def location : Target → Option Location
  | .name _ _ l => l
  | .string _ l => l
  | .number _ l => l
  | .call _ _ l => l
  | .binary _ _ _ l => l
  | .compare _ _ _ l => l
  | .branch _ _ _ l => l
  | .ret _ l => l
  | .assign _ _ l => l
  | .function _ _ _ l => l
  | .print _ _ l => l
  | .statement _ l => l

/-- The same tree at another location; its children stay where they are. -/
def withLocation (l : Option Location) : Target → Target
  | .name id use _ => .name id use l
  | .string value _ => .string value l
  | .number value _ => .number value l
  | .call func args _ => .call func args l
  | .binary left op right _ => .binary left op right l
  | .compare left ops comparators _ => .compare left ops comparators l
  | .branch test body orelse _ => .branch test body orelse l
  | .ret value _ => .ret value l
  | .assign target value _ => .assign target value l
  | .function id params body _ => .function id params body l
  | .print values newline _ => .print values newline l
  | .statement value _ => .statement value l

/-! ### Children -/

/-- The trees directly below a tree, in the order of the source. -/
def children : Target → List Target
  | .name _ _ _ => []
  | .string _ _ => []
  | .number _ _ => []
  | .call func args _ => func :: args
  | .binary left _ right _ => [left, right]
  | .compare left _ comparators _ => left :: comparators
  | .branch test body orelse _ => test :: (body ++ orelse)
  | .ret value _ => [value]
  | .assign target value _ => [target, value]
  | .function _ params body _ => params ++ body
  | .print values _ _ => values
  | .statement value _ => [value]

/-- Replace each tree directly below a tree. -/
def mapChildren (f : Target → Target) : Target → Target
  | .name id use l => .name id use l
  | .string value l => .string value l
  | .number value l => .number value l
  | .call func args l => .call (f func) (args.map f) l
  | .binary left op right l => .binary (f left) op (f right) l
  | .compare left ops comparators l => .compare (f left) ops (comparators.map f) l
  | .branch test body orelse l => .branch (f test) (body.map f) (orelse.map f) l
  | .ret value l => .ret (f value) l
  | .assign target value l => .assign (f target) (f value) l
  | .function id params body l => .function id (params.map f) (body.map f) l
  | .print values newline l => .print (values.map f) newline l
  | .statement value l => .statement (f value) l

/-- The identifier of a name. -/
def identifier? : Target → Option String
  | .name id _ _ => some id
  | _ => none

/-- The names of the parameters of a function definition. -/
def paramNames : Target → List String
  | .function _ params _ _ => params.filterMap identifier?
  | _ => []

/-! ### Whole trees -/

mutual

/-- Rebuild a tree from its leaves upwards, applying `f` to every tree once its children are
rebuilt. -/
def rebuild (f : Target → Target) : Target → Target
  | .name id use l => f (.name id use l)
  | .string value l => f (.string value l)
  | .number value l => f (.number value l)
  | .call func args l => f (.call (func.rebuild f) (rebuildAll f args) l)
  | .binary left op right l => f (.binary (left.rebuild f) op (right.rebuild f) l)
  | .compare left ops comparators l =>
    f (.compare (left.rebuild f) ops (rebuildAll f comparators) l)
  | .branch test body orelse l =>
    f (.branch (test.rebuild f) (rebuildAll f body) (rebuildAll f orelse) l)
  | .ret value l => f (.ret (value.rebuild f) l)
  | .assign target value l => f (.assign (target.rebuild f) (value.rebuild f) l)
  | .function id params body l =>
    f (.function id (rebuildAll f params) (rebuildAll f body) l)
  | .print values newline l => f (.print (rebuildAll f values) newline l)
  | .statement value l => f (.statement (value.rebuild f) l)

def rebuildAll (f : Target → Target) : List Target → List Target
  | [] => []
  | t :: ts => t.rebuild f :: rebuildAll f ts

end

theorem rebuildAll_eq_map (f : Target → Target) :
    ∀ ts : List Target, rebuildAll f ts = ts.map (rebuild f)
  | [] => rfl
  | t :: ts => by rw [rebuildAll, rebuildAll_eq_map f ts, List.map_cons]

theorem rebuild_eq (f : Target → Target) (t : Target) :
    t.rebuild f = f (t.mapChildren (rebuild f)) := by
  cases t <;> simp [rebuild, mapChildren, rebuildAll_eq_map]

/-- A tree with every location forgotten. -/
def erase : Target → Target := rebuild (withLocation none)

/-- Apply `g` to the identifier of a name; every other tree stays as it is. -/
def renameHere (g : String → String) : Target → Target
  | .name id use l => .name (g id) use l
  | t => t

/-- Apply `g` to the identifier of every name in a tree. -/
def rename (g : String → String) : Target → Target := rebuild (renameHere g)

mutual

/-- Whether a tree and all trees below it have locations. -/
def isLocated : Target → Bool
  | .name _ _ l => l.isSome
  | .string _ l => l.isSome
  | .number _ l => l.isSome
  | .call func args l => l.isSome && func.isLocated && allLocated args
  | .binary left _ right l => l.isSome && left.isLocated && right.isLocated
  | .compare left _ comparators l => l.isSome && left.isLocated && allLocated comparators
  | .branch test body orelse l =>
    l.isSome && test.isLocated && allLocated body && allLocated orelse
  | .ret value l => l.isSome && value.isLocated
  | .assign target value l => l.isSome && target.isLocated && value.isLocated
  | .function _ params body l => l.isSome && allLocated params && allLocated body
  | .print values _ l => l.isSome && allLocated values
  | .statement value l => l.isSome && value.isLocated

def allLocated : List Target → Bool
  | [] => true
  | t :: ts => t.isLocated && allLocated ts

end

theorem allLocated_eq_all : ∀ ts : List Target, allLocated ts = ts.all isLocated
  | [] => rfl
  | t :: ts => by rw [allLocated, allLocated_eq_all ts, List.all_cons]

/-- A tree is located when it has a location and its children are located. -/
theorem isLocated_eq (t : Target) :
    t.isLocated = (t.location.isSome && t.children.all isLocated) := by
  cases t <;>
    simp [isLocated, location, children, allLocated_eq_all, List.all_append, Bool.and_assoc]

mutual

/-- Give every tree without a location the one of the tree above it, and the topmost the one
handed down to it. -/
def inherit (above : Location) : Target → Target
  | .name id use l => .name id use (some (l.getD above))
  | .string value l => .string value (some (l.getD above))
  | .number value l => .number value (some (l.getD above))
  | .call func args l =>
    let here := l.getD above
    .call (func.inherit here) (inheritAll here args) (some here)
  | .binary left op right l =>
    let here := l.getD above
    .binary (left.inherit here) op (right.inherit here) (some here)
  | .compare left ops comparators l =>
    let here := l.getD above
    .compare (left.inherit here) ops (inheritAll here comparators) (some here)
  | .branch test body orelse l =>
    let here := l.getD above
    .branch (test.inherit here) (inheritAll here body) (inheritAll here orelse) (some here)
  | .ret value l =>
    let here := l.getD above
    .ret (value.inherit here) (some here)
  | .assign target value l =>
    let here := l.getD above
    .assign (target.inherit here) (value.inherit here) (some here)
  | .function id params body l =>
    let here := l.getD above
    .function id (inheritAll here params) (inheritAll here body) (some here)
  | .print values newline l =>
    let here := l.getD above
    .print (inheritAll here values) newline (some here)
  | .statement value l =>
    let here := l.getD above
    .statement (value.inherit here) (some here)

/-- Let several trees inherit the location of the tree above them. -/
def inheritAll (above : Location) : List Target → List Target
  | [] => []
  | t :: ts => t.inherit above :: inheritAll above ts

end

theorem inheritAll_eq_map (above : Location) :
    ∀ ts : List Target, inheritAll above ts = ts.map (inherit above)
  | [] => rfl
  | t :: ts => by rw [inheritAll, inheritAll_eq_map above ts, List.map_cons]

/-- A tree takes its own location or the one above, and hands it down. -/
theorem inherit_eq (above : Location) (t : Target) :
    t.inherit above =
      (t.mapChildren (inherit (t.location.getD above))).withLocation
        (some (t.location.getD above)) := by
  cases t <;> simp [inherit, mapChildren, withLocation, location, inheritAll_eq_map]

end Target

end FormLower
