import FormLower.Encoding.Record
import FormLower.Number
import FormLower.Place

/-! # Numbers and places in the data format -/

namespace FormLower

namespace Number

/-- A number as it is stored; an infinite or undefined one is lost. -/
def encode : Number → Json
  | .int value => .integer value.toInt
  | .float value => if value.isFinite then .float value else .null

/-- The number that is stored: an integer as an integer if it is in range. -/
def decode? : Json → Option Number
  | .integer value =>
    some ((ofInt? value).getD (.float (Decimal.toBinary (value < 0) ⟨value.natAbs, 0⟩)))
  | .float value => some (.float value)
  | _ => none

end Number

namespace Location

def encode (l : Location) : Json :=
  .object [("file", .string l.file), ("line", .integer l.line), ("column", .integer l.column)]

def fields : List String := ["file", "line", "column"]

def decode? (j : Json) : Option Location := do
  let file ← j.field? fields "file"
  let line ← j.field? fields "line"
  let column ← j.field? fields "column"
  pure ⟨← file.val.string?, ← line.val.nat?, ← column.val.nat?⟩

end Location

namespace Span

def encode (s : Span) : Json := .object [("start", s.start.encode), ("end", s.stop.encode)]

def fields : List String := ["start", "end"]

def decode? (j : Json) : Option Span := do
  let start ← j.field? fields "start"
  let stop ← j.field? fields "end"
  pure ⟨← Location.decode? start.val, ← Location.decode? stop.val⟩

end Span

end FormLower
