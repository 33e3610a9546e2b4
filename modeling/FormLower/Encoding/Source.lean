import FormLower.Encoding.Place
import FormLower.Source

/-! # Source trees in the data format -/

namespace FormLower

namespace Leaf

/-- The kind of a leaf as it is stored. -/
def encode : Leaf → Json
  | .symbol name => .object [("type", .string "symbol"), ("name", .string name)]
  | .string value => .object [("type", .string "string"), ("value", .string value)]
  | .number value => .object [("type", .string "number"), ("value", value.encode)]
  | .bool value => .object [("type", .string "bool"), ("value", .bool value)]

end Leaf

namespace Source

/-- A tree of a kind at a place. -/
def record (kind : Json) (place : Place) : Json :=
  .object <| ("kind", kind) :: Json.present "location" (place.location.map Location.encode) ++
    Json.present "span" (place.span.map Span.encode)

mutual

def encode : Source → Json
  | .leaf value place => record value.encode place
  | .call head args place =>
    record (.object [("type", .string "expression"), ("function", .string head),
      ("args", .array (encodeAll args))]) place
  | .list elements place =>
    record (.object [("type", .string "list"), ("elements", .array (encodeAll elements))]) place

def encodeAll : List Source → List Json
  | [] => []
  | s :: ss => s.encode :: encodeAll ss

end

theorem encodeAll_eq_map : ∀ ss : List Source, encodeAll ss = ss.map encode
  | [] => rfl
  | s :: ss => by rw [encodeAll, encodeAll_eq_map ss, List.map_cons]

def fields : List String := ["kind", "location", "span"]

/-- The place that is stored with a tree. -/
def decodePlace? (j : Json) : Option Place := do
  let location ← Json.optional? Location.decode? (j.field? fields "location")
  let span ← Json.optional? Span.decode? (j.field? fields "span")
  pure ⟨location, span⟩

/-- The variants of trees. -/
def variants : List String := ["symbol", "string", "number", "bool", "expression", "list"]

/-- The fields of the variants of trees, after the name of the variant. -/
def variantFields : String → List String
  | "symbol" => ["name"]
  | "string" => ["value"]
  | "number" => ["value"]
  | "bool" => ["value"]
  | "expression" => ["function", "args"]
  | "list" => ["elements"]
  | _ => []

mutual

/-- The tree that is stored as a record. -/
def decodeRecord? (standing : Json.Standing) (j : Json) : Option Source := do
  let place ← decodePlace? j
  let ⟨kind, _⟩ ← j.field? fields "kind"
  let variant ← kind.variant? "type" variants standing
  let field (name : String) : Option (Json.Part kind) :=
    kind.field? ("type" :: variantFields variant) name
  match variant with
  | "symbol" => pure (.leaf (.symbol (← (← field "name").val.string?)) place)
  | "string" => pure (.leaf (.string (← (← field "value").val.string?)) place)
  | "number" => pure (.leaf (.number (← Number.decode? (← field "value").val)) place)
  | "bool" => pure (.leaf (.bool (← (← field "value").val.bool?)) place)
  | "expression" =>
    let head ← (← field "function").val.string?
    let ⟨args, _⟩ ← field "args"
    let ⟨args, _⟩ ← args.items?
    pure (.call head (← decodeRecords? .inside args) place)
  | "list" =>
    let ⟨elements, _⟩ ← field "elements"
    let ⟨elements, _⟩ ← elements.items?
    pure (.list (← decodeRecords? .inside elements) place)
  | _ => none
termination_by sizeOf j

def decodeRecords? (standing : Json.Standing) : List Json → Option (List Source)
  | [] => some []
  | j :: js => do
    let s ← decodeRecord? standing j
    let ss ← decodeRecords? standing js
    pure (s :: ss)
termination_by js => sizeOf js

end

/-- The tree that is stored. -/
def decode? (j : Json) : Option Source := decodeRecord? .alone j

/-- The trees of a stored forest. -/
def decodeForest? : Json → Option (List Source)
  | .array items => decodeRecords? .alone items
  | _ => none

end Source

end FormLower
