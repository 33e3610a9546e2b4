import FormLower.Text.Columns
import FormLower.Text.Emoji

/-! # The width of a text on a terminal

The columns of a text are those of its characters, but for characters that are drawn as one sign:
a pair of letters that is always joined, a picture that is put together from several ones, a flag
of two letters.  A text is measured from its end; what stands after a character decides whether the
character is a sign of its own. -/

namespace FormLower

/-! ### Letters that are joined -/

/-- The characters without a column that keep Arabic letters from being joined over them. -/
def joinBreakRanges : List (Nat × Nat) := [
  (0x605, 0x605), (0x890, 0x891), (0x8e2, 0x8e2), (0x9be, 0x9be), (0x9d7, 0x9d7), (0xb3e, 0xb3e),
  (0xb57, 0xb57), (0xbbe, 0xbbe), (0xbd7, 0xbd7), (0xcc0, 0xcc0), (0xcc2, 0xcc2), (0xcc7, 0xcc8),
  (0xcca, 0xccb), (0xcd5, 0xcd6), (0xd3e, 0xd3e), (0xd4e, 0xd4e), (0xd57, 0xd57), (0xdcf, 0xdcf),
  (0xddf, 0xddf), (0x1160, 0x11ff), (0x1715, 0x1715), (0x1734, 0x1734), (0x180e, 0x180e),
  (0x1b35, 0x1b35), (0x1b3b, 0x1b3b), (0x1b3d, 0x1b3d), (0x1b43, 0x1b44), (0x1baa, 0x1baa),
  (0x1bf2, 0x1bf3), (0x200c, 0x200d), (0x2065, 0x2069), (0x302e, 0x302f), (0x3164, 0x3164),
  (0xa8fa, 0xa8fa), (0xa953, 0xa953), (0xa9c0, 0xa9c0), (0xd7b0, 0xd7c6), (0xd7cb, 0xd7fb),
  (0xffa0, 0xffa0), (0xfff0, 0xfff8), (0x111c0, 0x111c0), (0x111c2, 0x111c3), (0x11235, 0x11235),
  (0x1133e, 0x1133e), (0x1134d, 0x1134d), (0x11357, 0x11357), (0x113b8, 0x113b8),
  (0x113c2, 0x113c2), (0x113c5, 0x113c5), (0x113c7, 0x113c9), (0x113cf, 0x113cf),
  (0x113d1, 0x113d1), (0x114b0, 0x114b0), (0x114bd, 0x114bd), (0x115af, 0x115af),
  (0x116b6, 0x116b6), (0x11930, 0x11930), (0x1193d, 0x1193d), (0x1193f, 0x1193f),
  (0x11941, 0x11941), (0x11a84, 0x11a89), (0x11d46, 0x11d46),
  (0x11f02, 0x11f02), (0x16ff0, 0x16ff1), (0x1d165, 0x1d166), (0x1d16d, 0x1d172),
  (0x1d250, 0x1d252), (0x1d25d, 0x1d25f), (0x1d280, 0x1d281),
  (0xe0000, 0xe0000), (0xe0002, 0xe001f), (0xe0080, 0xe00ff), (0xe01f0, 0xe0fff)]

/-- Whether Arabic letters are joined over a character. -/
def isJoinedOver (c : Char) : Bool := takesNoColumn c && !inRanges c.toNat joinBreakRanges

/-- Whether a character asks for the characters around it to be joined. -/
def isJoiner (c : Char) : Bool := c.toNat = 0x200d

/-- Whether a character is a mark that selects a variant of what it stands after and is not drawn
itself. -/
def isVariantMark (c : Char) : Bool :=
  inRanges c.toNat [(0x34f, 0x34f), (0x17b4, 0x17b5), (0x180b, 0x180d), (0x180f, 0x180f),
    (0xfe00, 0xfe0f), (0xe0100, 0xe01ef)]

/-- Whether a character is a form of the Arabic letter alef. -/
def isAlef (c : Char) : Bool :=
  inRanges c.toNat [(0x622, 0x623), (0x625, 0x625), (0x627, 0x627), (0x671, 0x673),
    (0x675, 0x675), (0x773, 0x774), (0x870, 0x882)]

/-- Whether a character is a form of the Arabic letter lam. -/
def isLam (c : Char) : Bool :=
  inRanges c.toNat [(0x644, 0x644), (0x6b5, 0x6b8), (0x76a, 0x76a), (0x8a6, 0x8a6), (0x8c7, 0x8c7)]

/-- Whether a character is a Khmer letter that a coeng puts below the letter before it. -/
def isCoengLetter (c : Char) : Bool :=
  inRanges c.toNat [(0x1780, 0x1782), (0x1784, 0x1787), (0x1789, 0x178c), (0x178e, 0x1793),
    (0x1795, 0x1798), (0x179b, 0x179d), (0x17a0, 0x17a0), (0x17a2, 0x17a2), (0x17a7, 0x17a7),
    (0x17ab, 0x17ac), (0x17af, 0x17af)]

/-- Whether a character is a Tifinagh consonant. -/
def isTifinaghConsonant (c : Char) : Bool :=
  inRanges c.toNat [(0x2d31, 0x2d65), (0x2d6f, 0x2d6f)]

/-- Whether a character is a Lisu tone letter of the lower row. -/
def isLowTone (c : Char) : Bool := 0xa4fc ≤ c.toNat && c.toNat ≤ 0xa4fd

/-- Whether a character is a Lisu tone letter of the upper row. -/
def isHighTone (c : Char) : Bool := 0xa4f8 ≤ c.toNat && c.toNat ≤ 0xa4fb

/-- The later part of two letters that may be joined. -/
inductive LaterPart where
  /-- The Hebrew letter lamed, which alef is joined to. -/
  | lamed
  /-- The Buginese letter ya, which the vowel sign i is joined to. -/
  | ya
  /-- The Buginese vowel sign i with the letter ya, which the letter a is joined to. -/
  | vowelYa
  /-- A Khmer letter below the one before it. -/
  | coengLetter
  /-- A Tifinagh consonant. -/
  | consonant
  /-- A Tifinagh consonant after a consonant joiner. -/
  | joinedConsonant
  /-- A Lisu tone letter of the lower row. -/
  | lowTone
  /-- The Old Turkic letter i of the Orkhon, which ec is joined to. -/
  | orkhonI
deriving DecidableEq, Repr

/-! ### What follows a character -/

/-- The tags before the end of the tag sequence of a flag: letters alone, or digits with up to four
letters after them. -/
inductive TagRun where
  | letters (count : Nat)
  | digits (count : Nat)
deriving DecidableEq, Repr

/-- What stands after a character, as far as the character may be drawn as one sign with it. -/
inductive Following where
  | nothing
  | lineFeed
  | alef
  /-- The later part of two letters, and whether a joiner stands before it. -/
  | later (part : LaterPart) (joined : Bool)
  /-- The Kirat Rai vowel sign e. -/
  | vowelE
  /-- The Kirat Rai vowel sign ai. -/
  | vowelAi
  /-- A picture, which may be put together from several ones. -/
  | picture
  | skinTone
  | flagLetter
  | flagLetters
  /-- A joiner with a picture after it. -/
  | joinedPicture
  /-- The frame of a keycap before a joined picture. -/
  | joinedKeycap
  /-- One flag letter before a joined picture. -/
  | joinedFlagLetter
  /-- Several flag letters before a joined picture. -/
  | joinedFlagLetters (even : Bool)
  /-- The end of a tag sequence before a joined picture. -/
  | joinedTags (run : TagRun)
deriving DecidableEq, Repr

namespace Following

/-- Whether what follows is a letter that may be joined. -/
def isLetter : Following → Bool
  | .alef => true
  | .later _ _ => true
  | _ => false

/-- Whether what follows is joined to a picture with a style of its own. -/
def isJoinedPicture : Following → Bool
  | .joinedPicture => true
  | .joinedKeycap => true
  | _ => false

/-- Whether a joiner before what follows makes it a joined picture. -/
def takesJoiner : Following → Bool
  | .picture => true
  | .skinTone => true
  | .flagLetters => true
  | .joinedFlagLetters _ => true
  | _ => false

/-- What a character is to the character before it. -/
def ofChar (c : Char) : Following :=
  if c.toNat = 0x5dc then .later .lamed false
  else if isAlef c then .alef
  else if isCoengLetter c then .later .coengLetter false
  else if c.toNat = 0x1a10 then .later .ya false
  else if isTifinaghConsonant c then .later .consonant false
  else if isLowTone c then .later .lowTone false
  else if c.toNat = 0x10c03 then .later .orkhonI false
  else if c.toNat = 0x16d67 then .vowelE
  else if c.toNat = 0x16d68 then .vowelAi
  else if isFlagLetter c then .flagLetter
  else if isSkinTone c then .skinTone
  else if isPicture c then .picture
  else .nothing

end Following

/-! ### Drawing a character together with what follows -/

/-- The columns that a character adds, and what it is to the character before it. -/
abbrev Drawn : Type := Int × Following

/-- A letter drawn as one sign with the later part of two letters. -/
def LaterPart.join? (part : LaterPart) (joined : Bool) (c : Char) : Option Drawn :=
  let n := c.toNat
  match part, joined with
  | .lamed, true => if n = 0x5d0 then some (0, .nothing) else none
  | .ya, true => if n = 0x1a17 then some (0, .later .vowelYa true) else none
  | .vowelYa, _ => if n = 0x1a15 then some (0, .nothing) else none
  | .coengLetter, _ => if n = 0x17d2 then some (-1, .nothing) else none
  | .consonant, joined =>
    if isConsonantJoiner c then some (1, .later .joinedConsonant true)
    else if joined && isTifinaghConsonant c then some (0, .nothing)
    else none
  | .joinedConsonant, _ => if isTifinaghConsonant c then some (-1, .nothing) else none
  | .lowTone, _ => if isHighTone c then some (0, .nothing) else none
  | .orkhonI, true => if n = 0x10c32 then some (0, .nothing) else none
  | _, _ => none

/-- A character drawn together with the tags of a flag. -/
def TagRun.join? (run : TagRun) (c : Char) : Option Drawn :=
  let n := c.toNat
  let isLetter : Bool := 0xe0061 ≤ n && n ≤ 0xe007a
  let isDigit : Bool := 0xe0030 ≤ n && n ≤ 0xe0039
  let isFlag : Bool := n = 0x1f3f4
  match run with
  | .letters count =>
    if isLetter && count < 6 then some (0, .joinedTags (.letters (count + 1)))
    else if isDigit && count ≤ 4 then some (0, .joinedTags (.digits 1))
    else if isFlag && 3 ≤ count then some (0, .picture)
    else none
  | .digits count =>
    if isDigit && count < 3 then some (0, .joinedTags (.digits (count + 1)))
    else if isFlag && count = 3 then some (0, .picture)
    else none

/-- A character drawn together with a picture behind a joiner. -/
def joinPicture? (c : Char) : Option Drawn :=
  if c.toNat = 0x20e3 then some (0, .joinedKeycap)
  else if isFlagLetter c then some (1, .joinedFlagLetter)
  else if isSkinTone c then some (0, .skinTone)
  else if c.toNat = 0xe007f then some (0, .joinedTags (.letters 0))
  else if isPicture c then some (0, .picture)
  else none

/-- A character drawn together with the Kirat Rai vowel sign e: two signs for e make ai, and with
the sign for aa before them they make o and au. -/
def joinVowelE? (c : Char) : Option Drawn :=
  let n := c.toNat
  if n = 0x16d63 || n = 0x16d69 then some (0, .nothing)
  else if n = 0x16d67 then some (0, .vowelAi)
  else if n = 0x16d68 then some (1, .vowelE)
  else none

/-- A character drawn as one sign with what follows, if it can be. -/
def Following.join? (f : Following) (c : Char) : Option Drawn :=
  if f.takesJoiner && isJoiner c then some (0, .joinedPicture)
  else
    match f with
    | .alef =>
      if isLam c then some (0, .nothing)
      else if isJoinedOver c then some (0, .alef)
      else none
    | .later part joined =>
      if isJoiner c then some (0, .later part true)
      else if isVariantMark c then some (0, .later part joined)
      else part.join? joined c
    | .vowelE => joinVowelE? c
    | .vowelAi => if c.toNat = 0x16d63 then some (0, .nothing) else none
    | .skinTone => if takesSkinTone c then some (0, .picture) else none
    | .flagLetter | .flagLetters => if isFlagLetter c then some (1, .flagLetters) else none
    | .joinedPicture => joinPicture? c
    | .joinedFlagLetter | .joinedFlagLetters false =>
      if isFlagLetter c then some (-1, .joinedFlagLetters true) else none
    | .joinedFlagLetters true =>
      if isFlagLetter c then some (3, .joinedFlagLetters false) else none
    | .joinedTags run => run.join? c
    | .nothing | .lineFeed | .picture | .joinedKeycap => none

/-! ### Styles -/

/-- Whether a character is a curly quotation mark, which has a form as wide as an ideograph. -/
def takesWideStyle (c : Char) : Bool :=
  inRanges c.toNat [(0x2018, 0x2019), (0x201c, 0x201d)]

/-- What follows a character, and the styles that are asked for before it. -/
structure Context where
  following : Following
  asPicture : Bool
  asText : Bool
  asWide : Bool
deriving DecidableEq, Repr

namespace Context

/-- What follows, without any style. -/
def plain (f : Following) : Context := ⟨f, false, false, false⟩

/-- At the end of a text. -/
def atEnd : Context := plain .nothing

/-- Ask for a picture.  Whatever is no letter and no joined picture is cut off by the request. -/
def askPicture (x : Context) : Context :=
  if x.following.isLetter || x.following.isJoinedPicture then { x with asPicture := true }
  else ⟨.nothing, true, false, false⟩

/-- Ask for plain text.  Whatever is no letter is cut off by the request. -/
def askText (x : Context) : Context :=
  if x.following.isLetter then { x with asText := true } else ⟨.nothing, false, true, false⟩

/-- Ask for a wide form.  Whatever is no letter is cut off by the request. -/
def askWide (x : Context) : Context :=
  if x.following.isLetter then { x with asWide := true } else ⟨.nothing, false, false, true⟩

/-- Forget a request for a picture that has not been met. -/
def dropPicture (x : Context) : Context :=
  if !x.asPicture then x
  else if x.following.isLetter then { x with asPicture := false }
  else atEnd

/-- A character up to the no-break space.  None of them is joined, but for the two that end a
line. -/
def addNarrow (x : Context) (c : Char) : Int × Context :=
  if c = '\n' then (1, plain .lineFeed)
  else if c = '\r' && x = plain .lineFeed then (0, atEnd)
  else (1, atEnd)

/-- A character after which no request for a picture is met. -/
def addUnstyled (x : Context) (c : Char) : Int × Context :=
  if c.toNat ≤ 0xa0 then x.addNarrow c
  else if c.toNat = 0xfe0f then (0, x.askPicture)
  else if c.toNat = 0xfe0e then (0, x.askText)
  else if c.toNat = 0xfe01 then (0, x.askWide)
  else if x.asText && takesTextStyle c then (1, atEnd)
  else if x.asWide && takesWideStyle c then (2, atEnd)
  else
    let (columns, following) :=
      (x.following.join? c).getD (charWidth c, Following.ofChar c)
    (columns, plain following)

/-- The columns that a character adds before a context, and the context before the character. -/
def add (x : Context) (c : Char) : Int × Context :=
  if x.asPicture && takesPictureStyle c then
    (if x.following.isJoinedPicture then 0 else 2, plain .picture)
  else x.dropPicture.addUnstyled c

end Context

/-- The columns of a text before a context, and the context before the text. -/
def measure (x : Context) : List Char → Int × Context
  | [] => (0, x)
  | c :: cs =>
    let (rest, after) := measure x cs
    let (columns, before) := after.add c
    (columns + rest, before)

/-- The columns that a text takes. -/
def textWidth (s : String) : Nat := (measure .atEnd s.toList).1.toNat

end FormLower
