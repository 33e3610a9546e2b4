import FormLower.Surface.Token

/-! # Nested brackets

The tokens of a text grouped by their brackets.  Grouping fails at the first token that cannot
continue what is before it, or at the end of the text if a bracket is open there. -/

namespace FormLower

/-- An atom, a string or a bracketed group, with where it stands. -/
inductive Datum where
  | atom (text : String) (extent : Extent)
  | string (value : String) (extent : Extent)
  | group (bracket : Bracket) (items : List Datum) (extent : Extent)

def Datum.extent : Datum → Extent
  | .atom _ e => e
  | .string _ e => e
  | .group _ _ e => e

/-- The position at which grouping fails, and whether a bracket is open there. -/
structure NestingFault where
  position : Position
  isNested : Bool
deriving DecidableEq, Repr

/-- A bracket that is open: which one, where it stands, and what is before it inside the bracket
around it, the latest first. -/
structure OpenBracket where
  bracket : Bracket
  start : Position
  before : List Datum

/-- Group the tokens of a text that ends at a position.  The brackets that are open are given from
the innermost outwards, with what has been read inside the innermost, the latest first. -/
def Datum.nest (stop : Position) :
    List OpenBracket → List Datum → List Token → Except NestingFault (List Datum)
  | [], items, [] => .ok items.reverse
  | _ :: _, _, [] => .error ⟨stop, true⟩
  | stack, items, ⟨.opening b, e⟩ :: ts => nest stop (⟨b, e.start, items⟩ :: stack) [] ts
  | [], _, ⟨.closing _, e⟩ :: _ => .error ⟨e.start, false⟩
  | frame :: stack, items, ⟨.closing b, e⟩ :: ts =>
    if frame.bracket = b then
      nest stop stack (.group b items.reverse ⟨frame.start, e.stop⟩ :: frame.before) ts
    else .error ⟨e.start, true⟩
  | stack, items, ⟨.string value, e⟩ :: ts => nest stop stack (.string value e :: items) ts
  | stack, items, ⟨.atom text, e⟩ :: ts => nest stop stack (.atom text e :: items) ts
  | stack, _, ⟨.strayQuote, e⟩ :: _ => .error ⟨e.start, !stack.isEmpty⟩

/-- The data of a text. -/
def Datum.ofText (text : List Char) : Except NestingFault (List Datum) :=
  Datum.nest (Position.first.afterAll text) [] [] (tokens text)

end FormLower
