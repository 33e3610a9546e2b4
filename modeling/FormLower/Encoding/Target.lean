import FormLower.Encoding.Place
import FormLower.Json.Printer
import FormLower.Program

/-! # Target trees and programs in the data format -/

namespace FormLower

/-! ### Words -/

namespace Arithmetic

def word : Arithmetic → String
  | .add => "Add"
  | .sub => "Sub"
  | .mul => "Mul"
  | .div => "Div"

def ofWord? (w : String) : Option Arithmetic := all.find? fun op => op.word = w

end Arithmetic

namespace Comparison

def word : Comparison → String
  | .eq => "Eq"
  | .notEq => "NotEq"
  | .lt => "Lt"
  | .le => "LtE"
  | .gt => "Gt"
  | .ge => "GtE"
  | .member => "In"
  | .notMember => "NotIn"
  | .same => "Is"
  | .notSame => "IsNot"

def ofWord? (w : String) : Option Comparison := all.find? fun op => op.word = w

end Comparison

namespace Use

def all : List Use := [.load, .store, .param]

def word : Use → String
  | .load => "Load"
  | .store => "Store"
  | .param => "Param"

def ofWord? (w : String) : Option Use := all.find? fun use => use.word = w

end Use

namespace Target

/-! ### Writing -/

/-- A tree with the given fields at a location. -/
def record (variant : String) (fields : List (String × Json)) (location : Option Location) :
    Json :=
  .object <| ("kind", .object (("node", .string variant) :: fields)) ::
    Json.present "location" (location.map Location.encode)

/-- A list of comparison operators as it is stored. -/
def encodeOps (ops : List Comparison) : Json := .array (ops.map fun op => .string op.word)

mutual

def encode : Target → Json
  | .name id use l => record "Name" [("id", .string id), ("ctx", .string use.word)] l
  | .string value l => record "Str" [("value", .string value)] l
  | .number value l => record "Num" [("value", value.encode)] l
  | .call func args l =>
    record "Call" [("func", func.encode), ("args", .array (encodeAll args))] l
  | .binary left op right l =>
    record "BinOp" [("left", left.encode), ("op", .string op.word), ("right", right.encode)] l
  | .compare left ops comparators l =>
    record "Compare" [("left", left.encode), ("ops", encodeOps ops),
      ("comparators", .array (encodeAll comparators))] l
  | .branch test body orelse l =>
    record "If" [("test", test.encode), ("body", .array (encodeAll body)),
      ("orelse", .array (encodeAll orelse))] l
  | .ret value l => record "Return" [("value", value.encode)] l
  | .assign target value l =>
    record "Assign" [("target", target.encode), ("value", value.encode)] l
  | .function id params body l =>
    record "FunctionDef" [("name", .string id), ("params", .array (encodeAll params)),
      ("body", .array (encodeAll body))] l
  | .print values newline l =>
    record "Print" [("values", .array (encodeAll values)), ("newline", .bool newline)] l
  | .statement value l => record "Expr" [("value", value.encode)] l

def encodeAll : List Target → List Json
  | [] => []
  | t :: ts => t.encode :: encodeAll ts

end

theorem encodeAll_eq_map : ∀ ts : List Target, encodeAll ts = ts.map encode
  | [] => rfl
  | t :: ts => by rw [encodeAll, encodeAll_eq_map ts, List.map_cons]

/-! ### Reading -/

def fields : List String := ["kind", "location"]

/-- The location that is stored with a tree. -/
def decodeLocation? (j : Json) : Option (Option Location) :=
  Json.optional? Location.decode? (j.field? fields "location")

/-- The operators of a comparison. -/
def decodeOps? : List Json → Option (List Comparison)
  | [] => some []
  | j :: js => do
    let op ← Comparison.ofWord? (← j.word?)
    let ops ← decodeOps? js
    pure (op :: ops)

/-- The variants of trees. -/
def variants : List String :=
  ["Name", "Str", "Num", "Call", "BinOp", "Compare", "If", "Return", "Assign", "FunctionDef",
    "Print", "Expr"]

/-- The fields of the variants of trees, after the name of the variant. -/
def variantFields : String → List String
  | "Name" => ["id", "ctx"]
  | "Str" => ["value"]
  | "Num" => ["value"]
  | "Call" => ["func", "args"]
  | "BinOp" => ["left", "op", "right"]
  | "Compare" => ["left", "ops", "comparators"]
  | "If" => ["test", "body", "orelse"]
  | "Return" => ["value"]
  | "Assign" => ["target", "value"]
  | "FunctionDef" => ["name", "params", "body"]
  | "Print" => ["values", "newline"]
  | "Expr" => ["value"]
  | _ => []

mutual

/-- The tree that is stored as a record. -/
def decodeRecord? (standing : Json.Standing) (j : Json) : Option Target := do
  let location ← decodeLocation? j
  let ⟨kind, _⟩ ← j.field? fields "kind"
  let variant ← kind.variant? "node" variants standing
  let field (name : String) : Option (Json.Part kind) :=
    kind.field? ("node" :: variantFields variant) name
  match variant with
  | "Name" =>
    let id ← (← field "id").val.string?
    let use ← Use.ofWord? (← (← field "ctx").val.word?)
    pure (.name id use location)
  | "Str" => pure (.string (← (← field "value").val.string?) location)
  | "Num" => pure (.number (← Number.decode? (← field "value").val) location)
  | "Call" =>
    let ⟨func, _⟩ ← field "func"
    let ⟨args, _⟩ ← field "args"
    let ⟨args, _⟩ ← args.items?
    pure (.call (← decodeRecord? .inside func) (← decodeRecords? .inside args) location)
  | "BinOp" =>
    let ⟨left, _⟩ ← field "left"
    let op ← Arithmetic.ofWord? (← (← field "op").val.word?)
    let ⟨right, _⟩ ← field "right"
    pure (.binary (← decodeRecord? .inside left) op (← decodeRecord? .inside right) location)
  | "Compare" =>
    let ⟨left, _⟩ ← field "left"
    let ⟨ops, _⟩ ← (← field "ops").val.items?
    let ⟨comparators, _⟩ ← field "comparators"
    let ⟨comparators, _⟩ ← comparators.items?
    pure (.compare (← decodeRecord? .inside left) (← decodeOps? ops)
      (← decodeRecords? .inside comparators) location)
  | "If" =>
    let ⟨test, _⟩ ← field "test"
    let ⟨body, _⟩ ← field "body"
    let ⟨body, _⟩ ← body.items?
    let ⟨orelse, _⟩ ← field "orelse"
    let ⟨orelse, _⟩ ← orelse.items?
    pure (.branch (← decodeRecord? .inside test) (← decodeRecords? .inside body)
      (← decodeRecords? .inside orelse) location)
  | "Return" =>
    let ⟨value, _⟩ ← field "value"
    pure (.ret (← decodeRecord? .inside value) location)
  | "Assign" =>
    let ⟨target, _⟩ ← field "target"
    let ⟨value, _⟩ ← field "value"
    pure (.assign (← decodeRecord? .inside target) (← decodeRecord? .inside value) location)
  | "FunctionDef" =>
    let id ← (← field "name").val.string?
    let ⟨params, _⟩ ← field "params"
    let ⟨params, _⟩ ← params.items?
    let ⟨body, _⟩ ← field "body"
    let ⟨body, _⟩ ← body.items?
    pure (.function id (← decodeRecords? .inside params) (← decodeRecords? .inside body) location)
  | "Print" =>
    let ⟨values, _⟩ ← field "values"
    let ⟨values, _⟩ ← values.items?
    pure (.print (← decodeRecords? .inside values) (← (← field "newline").val.bool?) location)
  | "Expr" =>
    let ⟨value, _⟩ ← field "value"
    pure (.statement (← decodeRecord? .inside value) location)
  | _ => none
termination_by sizeOf j

def decodeRecords? (standing : Json.Standing) : List Json → Option (List Target)
  | [] => some []
  | j :: js => do
    let t ← decodeRecord? standing j
    let ts ← decodeRecords? standing js
    pure (t :: ts)
termination_by js => sizeOf js

end

def decode? (j : Json) : Option Target := decodeRecord? .alone j

/-- The trees that are stored one after the other. -/
def decodeAll? (js : List Json) : Option (List Target) := decodeRecords? .alone js

end Target

namespace Program

def encode (p : Program) : Json :=
  .object [("name", .string p.name), ("body", .array (Target.encodeAll p.body))]

def fields : List String := ["name", "body"]

def decode? (j : Json) : Option Program := do
  let name ← j.field? fields "name"
  let body ← j.field? fields "body"
  let items ← body.val.items?
  pure ⟨← name.val.string?, ← Target.decodeAll? items.val⟩

/-- A program as a text in the data format, an item a line. -/
def stored (p : Program) : String := p.encode.pretty

end Program

end FormLower
