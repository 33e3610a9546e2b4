import FormLower.Surface.Position

/-! # Tokens

The surface language is made of brackets, strings and atoms, between which blanks and comments
count for nothing.  An atom is as long as it can be.  A text is scanned character by character; the
state of the scan says what the character before belongs to.  A quote that does not start a
complete string spoils everything after it, so scanning stops there with a token of its own. -/

namespace FormLower

/-- The two kinds of brackets. -/
inductive Bracket where
  | round
  | square
deriving DecidableEq, Repr

/-- What a token is. -/
inductive Lexeme where
  | opening (bracket : Bracket)
  | closing (bracket : Bracket)
  | string (value : String)
  | atom (text : String)
  /-- A quote that starts no complete string. -/
  | strayQuote
deriving DecidableEq, Repr

/-- A token and where it stands. -/
structure Token where
  lexeme : Lexeme
  extent : Extent
deriving DecidableEq, Repr

/-! ### Characters -/

/-- Whether a character counts for nothing between tokens. -/
def isBlank (c : Char) : Bool := c = ' ' || c = '\t' || c = '\r' || c = '\n' || c = ','

/-- The bracket that a character is. -/
def bracketLexeme? : Char → Option Lexeme
  | '(' => some (.opening .round)
  | ')' => some (.closing .round)
  | '[' => some (.opening .square)
  | ']' => some (.closing .square)
  | _ => none

/-- Whether a character may stand in an atom. -/
def isAtomChar (c : Char) : Bool :=
  !isBlank c && (bracketLexeme? c).isNone && c ≠ '"' && c ≠ ';'

/-- The character that stands for an escape, after the backslash. -/
def unescape? : Char → Option Char
  | '"' => some '"'
  | '\\' => some '\\'
  | 'n' => some '\n'
  | 't' => some '\t'
  | 'r' => some '\r'
  | _ => none

/-! ### Scanning -/

/-- What the character before belongs to.  The characters of an unfinished token are kept with the
latest first. -/
inductive ScanMode where
  | between
  | comment
  | atom (start : Position) (chars : List Char)
  | string (start : Position) (chars : List Char)
  /-- In a string, after a backslash. -/
  | escape (start : Position) (chars : List Char)
  /-- After a quote that starts no complete string. -/
  | spoilt (start : Position)
deriving DecidableEq, Repr

/-- A scan under way: the position of the next character and the tokens so far, the latest
first. -/
structure Scan where
  position : Position
  mode : ScanMode
  tokens : List Token
deriving DecidableEq, Repr

namespace Scan

/-- The scan of a text from its first character on. -/
def start : Scan := ⟨.first, .between, []⟩

/-- Complete a token that ends before a position. -/
def emit (lexeme : Lexeme) (start stop : Position) (tokens : List Token) : List Token :=
  ⟨lexeme, ⟨start, stop⟩⟩ :: tokens

/-- Complete an atom. -/
def emitAtom (start : Position) (chars : List Char) (stop : Position) (tokens : List Token) :
    List Token :=
  emit (.atom (String.ofList chars.reverse)) start stop tokens

/-- Scan a character that does not continue a token. -/
def begin (p : Position) (tokens : List Token) (c : Char) : Scan :=
  let next := p.after c
  match bracketLexeme? c with
  | some lexeme => ⟨next, .between, emit lexeme p next tokens⟩
  | none =>
    if isBlank c then ⟨next, .between, tokens⟩
    else if c = ';' then ⟨next, .comment, tokens⟩
    else if c = '"' then ⟨next, .string p [], tokens⟩
    else ⟨next, .atom p [c], tokens⟩

def step (s : Scan) (c : Char) : Scan :=
  let p := s.position
  let next := p.after c
  match s.mode with
  | .between => begin p s.tokens c
  | .comment => ⟨next, if c = '\n' then .between else .comment, s.tokens⟩
  | .atom start chars =>
    if isAtomChar c then ⟨next, .atom start (c :: chars), s.tokens⟩
    else begin p (emitAtom start chars p s.tokens) c
  | .string start chars =>
    if c = '"' then
      ⟨next, .between, emit (.string (String.ofList chars.reverse)) start next s.tokens⟩
    else if c = '\\' then ⟨next, .escape start chars, s.tokens⟩
    else ⟨next, .string start (c :: chars), s.tokens⟩
  | .escape start chars =>
    match unescape? c with
    | some d => ⟨next, .string start (d :: chars), s.tokens⟩
    | none => ⟨next, .spoilt start, s.tokens⟩
  | .spoilt start => ⟨next, .spoilt start, s.tokens⟩

def run (s : Scan) (cs : List Char) : Scan := cs.foldl step s

/-- A stray quote is a token of one character. -/
def emitStray (start : Position) (tokens : List Token) : List Token :=
  emit .strayQuote start (start.after '"') tokens

/-- The tokens of a scan that ends here, the latest first. -/
def finish (s : Scan) : List Token :=
  match s.mode with
  | .between => s.tokens
  | .comment => s.tokens
  | .atom start chars => emitAtom start chars s.position s.tokens
  | .string start _ => emitStray start s.tokens
  | .escape start _ => emitStray start s.tokens
  | .spoilt start => emitStray start s.tokens

end Scan

/-- The tokens of a text. -/
def tokens (text : List Char) : List Token := (Scan.start.run text).finish.reverse

end FormLower
