import FormLower.Json.Value

/-! # Tokens of the data format

A text in the data format is made of brackets, commas, colons, strings and bare words, with blanks
between them.  It is scanned character by character. -/

namespace FormLower
namespace Json

/-- A token: a mark, a string or another scalar. -/
inductive Token where
  | openArray
  | closeArray
  | openObject
  | closeObject
  | comma
  | colon
  | string (value : String)
  | scalar (value : Json)

/-! ### Bare words -/

/-- Whether digits may stand before the point of a number: no zero before other digits. -/
def isWholePart : List Char → Bool
  | [] => false
  | '0' :: rest => rest.isEmpty
  | _ :: _ => true

/-- Cut a fraction off: a point and at least one digit, or nothing. -/
def spanFraction : List Char → Option (List Char × List Char)
  | '.' :: rest =>
    match spanDigits rest with
    | ([], _) => none
    | parts => some parts
  | rest => some ([], rest)

/-- The number that a word is written for. -/
def numberOfWord? (word : List Char) : Option Json :=
  let (negative, body) : Bool × List Char :=
    match word with
    | '-' :: rest => (true, rest)
    | rest => (false, rest)
  let (whole, afterWhole) := spanDigits body
  if isWholePart whole then do
    let (fraction, afterFraction) ← spanFraction afterWhole
    let exponent ← readExponent? afterFraction
    let size : Int := digitsValue whole
    let value := if negative then -size else size
    if afterWhole = [] ∧ FitsInteger value ∧ ¬(negative ∧ value = 0) then
      return .integer value
    else
      let x := (Decimal.ofDigits whole fraction exponent).toBinary negative
      if x.isFinite then return .float x else none
  else none

/-- The scalar that a word is written for. -/
def scalarOfWord? (word : List Char) : Option Json :=
  if word = ['n', 'u', 'l', 'l'] then some .null
  else if word = ['t', 'r', 'u', 'e'] then some (.bool true)
  else if word = ['f', 'a', 'l', 's', 'e'] then some (.bool false)
  else numberOfWord? word

/-! ### Characters of strings -/

/-- The character that an escape of one letter stands for. -/
def unescape? : Char → Option Char
  | '"' => some '"'
  | '\\' => some '\\'
  | '/' => some '/'
  | 'b' => some '\x08'
  | 'f' => some '\x0c'
  | 'n' => some '\n'
  | 'r' => some '\r'
  | 't' => some '\t'
  | _ => none

/-- The value of a hexadecimal digit. -/
def hexValue? (c : Char) : Option Nat :=
  if '0' ≤ c ∧ c ≤ '9' then some (c.toNat - '0'.toNat)
  else if 'a' ≤ c ∧ c ≤ 'f' then some (c.toNat - 'a'.toNat + 10)
  else if 'A' ≤ c ∧ c ≤ 'F' then some (c.toNat - 'A'.toNat + 10)
  else none

/-- Whether a code unit is the first half of a character. -/
def isLeading (unit : Nat) : Bool := 0xD800 ≤ unit && unit < 0xDC00

/-- Whether a code unit is the second half of a character. -/
def isTrailing (unit : Nat) : Bool := 0xDC00 ≤ unit && unit < 0xE000

/-- The character of two halves. -/
def joinUnits (leading trailing : Nat) : Char :=
  Char.ofNat (0x10000 + (leading - 0xD800) * 0x400 + (trailing - 0xDC00))

/-! ### Scanning -/

/-- What the character before belongs to, with the latest characters first. -/
inductive ScanMode where
  | between
  | word (chars : List Char)
  | string (chars : List Char)
  | escape (chars : List Char)
  /-- In an escape by code unit: its value and number of digits so far. -/
  | unit (chars : List Char) (leading : Option Nat) (value digits : Nat)
  /-- After the first half of a character: the second one has to follow. -/
  | half (chars : List Char) (leading : Nat)
  | halfEscape (chars : List Char) (leading : Nat)
  | failed

/-- A scan under way, with the latest tokens first. -/
structure Scan where
  mode : ScanMode
  tokens : List Token

namespace Scan

/-- The scan of a text from its first character on. -/
def start : Scan := ⟨.between, []⟩

/-- The scan of a text that is not in the format. -/
def failed : Scan := ⟨.failed, []⟩

/-- The mark that a character is. -/
def mark? : Char → Option Token
  | '[' => some .openArray
  | ']' => some .closeArray
  | '\x7b' => some .openObject
  | '\x7d' => some .closeObject
  | ',' => some .comma
  | ':' => some .colon
  | _ => none

/-- Whether a character counts for nothing between tokens. -/
def isBlank (c : Char) : Bool := c = ' ' || c = '\t' || c = '\n' || c = '\r'

/-- Scan a character that does not continue a token. -/
def begin (tokens : List Token) (c : Char) : Scan :=
  match mark? c with
  | some token => ⟨.between, token :: tokens⟩
  | none =>
    if isBlank c then ⟨.between, tokens⟩
    else if c = '"' then ⟨.string [], tokens⟩
    else ⟨.word [c], tokens⟩

/-- Scan the last digit of a code unit. -/
def endUnit (tokens : List Token) (chars : List Char) (leading : Option Nat) (unit : Nat) : Scan :=
  match leading with
  | some high =>
    if isTrailing unit then ⟨.string (joinUnits high unit :: chars), tokens⟩ else failed
  | none =>
    if isLeading unit then ⟨.half chars unit, tokens⟩
    else if isTrailing unit then failed
    else ⟨.string (Char.ofNat unit :: chars), tokens⟩

def step (s : Scan) (c : Char) : Scan :=
  match s.mode with
  | .failed => failed
  | .between => begin s.tokens c
  | .word chars =>
    if (mark? c).isSome || isBlank c || c = '"' then
      match scalarOfWord? chars.reverse with
      | some value => begin (.scalar value :: s.tokens) c
      | none => failed
    else ⟨.word (c :: chars), s.tokens⟩
  | .string chars =>
    if c = '"' then ⟨.between, .string (String.ofList chars.reverse) :: s.tokens⟩
    else if c = '\\' then ⟨.escape chars, s.tokens⟩
    else if c.toNat < 0x20 then failed
    else ⟨.string (c :: chars), s.tokens⟩
  | .escape chars =>
    if c = 'u' then ⟨.unit chars none 0 0, s.tokens⟩
    else
      match unescape? c with
      | some d => ⟨.string (d :: chars), s.tokens⟩
      | none => failed
  | .unit chars leading value digits =>
    match hexValue? c with
    | none => failed
    | some d =>
      if digits = 3 then endUnit s.tokens chars leading (value * 16 + d)
      else ⟨.unit chars leading (value * 16 + d) (digits + 1), s.tokens⟩
  | .half chars leading => if c = '\\' then ⟨.halfEscape chars leading, s.tokens⟩ else failed
  | .halfEscape chars leading =>
    if c = 'u' then ⟨.unit chars (some leading) 0 0, s.tokens⟩ else failed

/-- The tokens of a scan that ends here, in their order. -/
def finish (s : Scan) : Option (List Token) :=
  match s.mode with
  | .between => some s.tokens.reverse
  | .word chars =>
    (scalarOfWord? chars.reverse).map fun value => (.scalar value :: s.tokens).reverse
  | _ => none

end Scan

/-- The tokens of a text, if it is made of tokens. -/
def tokens? (text : List Char) : Option (List Token) := (text.foldl Scan.step Scan.start).finish

end Json
end FormLower
