import FormLower.Surface.Atom
import FormLower.Surface.Token
import Mathlib.Data.Nat.Digits.Defs

/-! # The surface grammar

What a text of the surface language is made of, stated apart from the reader that finds it out.

* `Scans p text ts q rest`: the characters of `text` from position `p` on begin with the tokens
  `ts`, between blanks and comments, and leave `rest` at `q`.  An atom is as long as it can be in
  the text that is actually there.
* `Balanced`: brackets open and close in matching pairs.
* `HeadsNamed` and `IntegersFit`: what a reader asks of a balanced text beyond its brackets.
* `Denotes ls trees`: the trees that lexemes stand for, places left out.

Lexemes denote trees exactly when they are balanced, every call has a symbol for its head and every
integer has 64 bits. -/

namespace FormLower
namespace Grammar

/-! ### Characters -/

/-- The characters that count for nothing between tokens. -/
def blanks : List Char := [' ', '\t', '\r', '\n', ',']

/-- The characters that are tokens by themselves. -/
def brackets : List (Char × Lexeme) :=
  [('(', .opening .round), (')', .closing .round), ('[', .opening .square),
    (']', .closing .square)]

/-- The characters that may follow a backslash in a string, with what they stand for. -/
def escapes : List (Char × Char) :=
  [('"', '"'), ('\\', '\\'), ('n', '\n'), ('t', '\t'), ('r', '\r')]

/-- A character that may stand in an atom. -/
def IsWordChar (c : Char) : Prop := c ∉ blanks ∧ c ∉ ['(', ')', '[', ']', '"', ';']

instance (c : Char) : Decidable (IsWordChar c) := inferInstanceAs (Decidable (_ ∧ _))

/-- `Quoted raw value`: between quotes, `raw` is complete and stands for `value`. -/
inductive Quoted : List Char → List Char → Prop
  | nil : Quoted [] []
  | plain {c : Char} {raw value : List Char} :
      c ≠ '"' → c ≠ '\\' → Quoted raw value → Quoted (c :: raw) (c :: value)
  | escape {c d : Char} {raw value : List Char} :
      (c, d) ∈ escapes → Quoted raw value → Quoted ('\\' :: c :: raw) (d :: value)

/-- Whether what follows a quote completes a string. -/
def CompletesString (cs : List Char) : Prop :=
  ∃ raw value rest, Quoted raw value ∧ cs = raw ++ '"' :: rest

/-! ### Tokens -/

/-- The tokens at the front of a text, and what they leave of it. -/
inductive Scans : Position → List Char → List Token → Position → List Char → Prop
  | done {p : Position} {rest : List Char} : Scans p rest [] p rest
  | blank {p q : Position} {c : Char} {cs rest : List Char} {ts : List Token} :
      c ∈ blanks → Scans (p.after c) cs ts q rest → Scans p (c :: cs) ts q rest
  | comment {p q : Position} {body cs rest : List Char} {ts : List Token} :
      '\n' ∉ body → (∀ c, cs.head? = some c → c = '\n') →
      Scans (p.afterAll (';' :: body)) cs ts q rest → Scans p (';' :: body ++ cs) ts q rest
  | bracket {p q : Position} {c : Char} {l : Lexeme} {cs rest : List Char} {ts : List Token} :
      (c, l) ∈ brackets → Scans (p.after c) cs ts q rest →
      Scans p (c :: cs) (⟨l, ⟨p, p.after c⟩⟩ :: ts) q rest
  | string {p q : Position} {raw value cs rest : List Char} {ts : List Token} :
      Quoted raw value → Scans (p.afterAll ('"' :: raw ++ ['"'])) cs ts q rest →
      Scans p ('"' :: raw ++ '"' :: cs)
        (⟨.string (String.ofList value), ⟨p, p.afterAll ('"' :: raw ++ ['"'])⟩⟩ :: ts) q rest
  | atom {p q : Position} {word cs rest : List Char} {ts : List Token} :
      word ≠ [] → (∀ c ∈ word, IsWordChar c) → (∀ c, cs.head? = some c → ¬ IsWordChar c) →
      Scans (p.afterAll word) cs ts q rest →
      Scans p (word ++ cs) (⟨.atom (String.ofList word), ⟨p, p.afterAll word⟩⟩ :: ts) q rest

/-- A whole text and its tokens. -/
def Splits (text : List Char) (ts : List Token) : Prop := ∃ q, Scans .first text ts q []

/-- What tokens are, without where they stand. -/
def lexemes (ts : List Token) : List Lexeme := ts.map Token.lexeme

/-! ### Atoms -/

/-- One or more decimal digits. -/
def IsDigits (cs : List Char) : Prop := cs ≠ [] ∧ ∀ c ∈ cs, c.isDigit

/-- The number that decimal digits are written for. -/
def decimalValue (cs : List Char) : Nat :=
  Nat.ofDigits 10 (cs.reverse.map fun c => c.toNat - '0'.toNat)

/-- An integer in decimal notation. -/
inductive IntegerText : List Char → Int → Prop
  | plain {ds : List Char} : IsDigits ds → IntegerText ds (decimalValue ds)
  | minus {ds : List Char} : IsDigits ds → IntegerText ('-' :: ds) (-decimalValue ds)

/-- An integer followed by a point and decimal places. -/
inductive FractionText : List Char → Prop
  | mk {whole ds : List Char} {i : Int} :
      IntegerText whole i → IsDigits ds → FractionText (whole ++ '.' :: ds)

/-- Whether characters have the shape of a number. -/
def NumberShaped (cs : List Char) : Prop := (∃ i, IntegerText cs i) ∨ FractionText cs

/-- A word that is neither a truth value nor shaped like a number. -/
structure IsSymbol (w : String) : Prop where
  ne_true : w ≠ "true"
  ne_false : w ≠ "false"
  not_number : ¬ NumberShaped w.toList

/-- The leaf that an atom stands for. -/
inductive AtomLeaf : String → Leaf → Prop
  | yes : AtomLeaf "true" (.bool true)
  | no : AtomLeaf "false" (.bool false)
  | int {w : String} {v : Int64} :
      IntegerText w.toList v.toInt → AtomLeaf w (.number (.int v))
  | float {w : String} {x : Binary64} :
      FractionText w.toList → Binary64.read? w.toList = some x → AtomLeaf w (.number (.float x))
  | symbol {w : String} : IsSymbol w → AtomLeaf w (.symbol w)

/-! ### Trees -/

/-- Brackets open and close in pairs of one kind. -/
inductive Balanced : List Lexeme → Prop
  | nil : Balanced []
  | string {v : String} {ls : List Lexeme} : Balanced ls → Balanced (.string v :: ls)
  | atom {w : String} {ls : List Lexeme} : Balanced ls → Balanced (.atom w :: ls)
  | group {b : Bracket} {inner ls : List Lexeme} :
      Balanced inner → Balanced ls → Balanced (.opening b :: inner ++ .closing b :: ls)

/-- What follows an opening round bracket is a symbol. -/
def HeadsNamed (ls : List Lexeme) : Prop :=
  ∀ after, .opening .round :: after <:+ ls → ∃ w rest, after = .atom w :: rest ∧ IsSymbol w

/-- Every integer has 64 bits. -/
def IntegersFit (ls : List Lexeme) : Prop :=
  ∀ w i, .atom w ∈ ls → IntegerText w.toList i → -2 ^ 63 ≤ i ∧ i < 2 ^ 63

/-- The trees that lexemes stand for, without places. -/
inductive Denotes : List Lexeme → List Source → Prop
  | nil : Denotes [] []
  | string {v : String} {ls : List Lexeme} {ss : List Source} :
      Denotes ls ss → Denotes (.string v :: ls) (.string v :: ss)
  | atom {w : String} {v : Leaf} {ls : List Lexeme} {ss : List Source} :
      AtomLeaf w v → Denotes ls ss → Denotes (.atom w :: ls) (.leaf v .unknown :: ss)
  | list {inner ls : List Lexeme} {es ss : List Source} :
      Denotes inner es → Denotes ls ss →
      Denotes (.opening .square :: inner ++ .closing .square :: ls) (.list es .unknown :: ss)
  | call {h : String} {inner ls : List Lexeme} {as ss : List Source} :
      IsSymbol h → Denotes inner as → Denotes ls ss →
      Denotes (.opening .round :: .atom h :: inner ++ .closing .round :: ls)
        (.call h as .unknown :: ss)

end Grammar
end FormLower
