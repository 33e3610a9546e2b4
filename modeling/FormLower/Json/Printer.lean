import FormLower.Json.Value

/-! # Writing the data format

A value is written on one line without blanks, or spread over lines with two blanks for each step
of nesting.  The two styles differ in nothing but blanks and line breaks. -/

namespace FormLower
namespace Json

/-! ### Scalars -/

/-- Floats are written with the fewest digits that identify them, an even digit where two are
equally near, in positional notation for small exponents and in scientific notation otherwise. -/
def layout : Layout := ⟨.even, false, fun e => -5 ≤ e ∧ e < 16⟩

/-- Four hexadecimal digits. -/
def hexQuad (n : Nat) : List Char :=
  let digits := Nat.toDigits 16 n
  List.replicate (4 - digits.length) '0' ++ digits

/-- What is written for a character of a string. -/
def escapeChar (c : Char) : List Char :=
  if c = '"' then ['\\', '"']
  else if c = '\\' then ['\\', '\\']
  else if c = '\n' then ['\\', 'n']
  else if c = '\r' then ['\\', 'r']
  else if c = '\t' then ['\\', 't']
  else if c = '\x08' then ['\\', 'b']
  else if c = '\x0c' then ['\\', 'f']
  else if c.toNat < 0x20 then '\\' :: 'u' :: hexQuad c.toNat
  else [c]

def stringText (s : String) : String :=
  String.ofList ('"' :: s.toList.flatMap escapeChar ++ ['"'])

/-- A float as a number; the format has no infinities and no undefined numbers. -/
def floatText (x : Binary64) : String :=
  if x.isFinite then String.ofList (layout.text x) else "null"

/-! ### Styles -/

/-- Where blanks are written. -/
structure Style where
  /-- what begins a new item at a depth of nesting -/
  lineBreak : Nat → String
  /-- what stands between the name of a member and its value -/
  colon : String

/-- No blanks at all. -/
def Style.compact : Style := ⟨fun _ => "", ":"⟩

/-- An item a line. -/
def Style.pretty : Style :=
  ⟨fun depth => "\n" ++ String.ofList (List.replicate (2 * depth) ' '), ": "⟩

/-- Items between brackets; no items leave no blanks. -/
def Style.enclose (style : Style) (depth : Nat) (opening closing : String)
    (items : List String) : String :=
  if items.isEmpty then opening ++ closing
  else
    opening ++ style.lineBreak (depth + 1) ++
      ("," ++ style.lineBreak (depth + 1)).intercalate items ++
      style.lineBreak depth ++ closing

mutual

/-- A value at a depth of nesting. -/
def render (style : Style) (depth : Nat) : Json → String
  | .null => "null"
  | .bool value => if value then "true" else "false"
  | .integer value => toString value
  | .float value => floatText value
  | .string value => stringText value
  | .array items => style.enclose depth "[" "]" (renderItems style (depth + 1) items)
  | .object members =>
    style.enclose depth "\x7b" "\x7d" (renderMembers style (depth + 1) members)

def renderItems (style : Style) (depth : Nat) : List Json → List String
  | [] => []
  | item :: items => item.render style depth :: renderItems style depth items

def renderMembers (style : Style) (depth : Nat) : List (String × Json) → List String
  | [] => []
  | (name, value) :: members =>
    (stringText name ++ style.colon ++ value.render style depth) ::
      renderMembers style depth members

end

def compact (j : Json) : String := j.render .compact 0

def pretty (j : Json) : String := j.render .pretty 0

end Json
end FormLower
