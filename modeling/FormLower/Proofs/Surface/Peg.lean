import FormLower.Surface.Position

/-! # Parsing expressions

The surface grammar is written as parsing expressions: choices are ordered, repetitions take as much
as they can, and an expression may ask for what is not there.  `Derives e p cs o` says that the
expression `e`, tried at position `p` on the characters `cs`, has the outcome `o`: it fails, or it
matches a word at the front and leaves the rest, with a pair for every rule that was matched on the
way and is not silent.

Outcomes are unique (`Derives.unique`), and an expression that repeats nothing empty has one
(`TotalBelow`).  Between the parts of a rule that is not atomic, blanks and comments are skipped;
the expressions say so where it happens. -/

namespace FormLower

theorem Position.afterAll_append (p : Position) (cs ds : List Char) :
    p.afterAll (cs ++ ds) = (p.afterAll cs).afterAll ds := List.foldl_append

namespace Peg

/-! ### Expressions and rules -/

/-- The rules of the surface grammar. -/
inductive Rule where
  | whitespace
  | comment
  | program
  | form
  | expression
  | list
  | string
  | strInner
  | strChar
  | boolean
  | number
  | symbol
  | symbolChar
  | endOfInput
deriving DecidableEq

/-- A parsing expression. -/
inductive Expr where
  /-- The beginning of the text. -/
  | start
  /-- The end of the text. -/
  | finish
  /-- One character of a class. -/
  | one (p : Char → Bool)
  /-- These characters. -/
  | text (s : List Char)
  | seq (a b : Expr)
  /-- The second expression is tried only where the first one fails. -/
  | choice (a b : Expr)
  | optional (a : Expr)
  /-- As often as it matches. -/
  | many (a : Expr)
  /-- Nothing, where the expression fails. -/
  | without (a : Expr)
  | rule (r : Rule)

namespace Expr

def any : Expr := .one fun _ => true

def oneOf (cs : List Char) : Expr := .one cs.contains

/-- Once or more often. -/
def some (a : Expr) : Expr := .seq a (.many a)

/-- Blanks and comments. -/
def skip : Expr :=
  .seq (.many (.rule .whitespace))
    (.many (.seq (.rule .comment) (.many (.rule .whitespace))))

/-- One after the other, with blanks and comments between them. -/
def spaced (a b : Expr) : Expr := .seq a (.seq skip b)

/-- As often as it matches, with blanks and comments in between. -/
def spacedMany (a : Expr) : Expr := .optional (.seq a (.many (.seq skip a)))

end Expr

namespace Rule

open Peg.Expr

/-- The expression that a rule stands for. -/
def body : Rule → Expr
  | .whitespace => .oneOf [' ', '\t', '\r', '\n', ',']
  | .comment => .seq (.text [';']) (.many (.seq (.without (.text ['\n'])) .any))
  | .program => .spaced .start (.spaced (.spacedMany (.rule .form)) (.rule .endOfInput))
  | .form =>
    .choice (.rule .expression) <| .choice (.rule .list) <| .choice (.rule .string) <|
      .choice (.rule .boolean) <| .choice (.rule .number) (.rule .symbol)
  | .expression => .spaced (.text ['(']) (.spaced (.spacedMany (.rule .form)) (.text [')']))
  | .list => .spaced (.text ['[']) (.spaced (.spacedMany (.rule .form)) (.text [']']))
  | .string => .seq (.text ['"']) (.seq (.rule .strInner) (.text ['"']))
  | .strInner => .many (.rule .strChar)
  | .strChar =>
    .choice (.seq (.without (.oneOf ['"', '\\'])) .any)
      (.seq (.text ['\\']) (.oneOf ['"', '\\', 'n', 't', 'r']))
  | .boolean =>
    .seq (.choice (.text ['t', 'r', 'u', 'e']) (.text ['f', 'a', 'l', 's', 'e']))
      (.without (.rule .symbolChar))
  | .number =>
    .seq (.optional (.text ['-'])) <| .seq (.some (.one Char.isDigit)) <|
      .seq (.optional (.seq (.text ['.']) (.some (.one Char.isDigit))))
        (.without (.rule .symbolChar))
  | .symbol => .some (.rule .symbolChar)
  | .symbolChar =>
    .seq (.without (.oneOf [' ', '\t', '\r', '\n', ',', '(', ')', '[', ']', '"', ';'])) .any
  | .endOfInput => .finish

/-- Whether matching a rule leaves no pair of its own. -/
def isSilent : Rule → Bool
  | .whitespace | .comment | .form | .symbolChar => true
  | _ => false

/-- Whether matching a rule leaves no pairs of the rules inside it. -/
def isAtomic : Rule → Bool
  | .strInner | .boolean | .number | .symbol => true
  | _ => false

end Rule

/-! ### Matching -/

/-- A rule that was matched: where and on what, and the pairs inside it. -/
inductive Pair where
  | mk (rule : Rule) (extent : Extent) (text : List Char) (inner : List Pair)

/-- What becomes of trying an expression. -/
inductive Outcome where
  | fail
  | ok (pairs : List Pair) (word rest : List Char)

/-- An expression has an outcome at a position on some characters. -/
inductive Derives : Expr → Position → List Char → Outcome → Prop
  | start {cs : List Char} : Derives .start .first cs (.ok [] [] cs)
  | start_fail {p : Position} {cs : List Char} : p ≠ .first → Derives .start p cs .fail
  | finish {p : Position} : Derives .finish p [] (.ok [] [] [])
  | finish_fail {p : Position} {c : Char} {cs : List Char} : Derives .finish p (c :: cs) .fail
  | one {P : Char → Bool} {p : Position} {c : Char} {cs : List Char} :
      P c → Derives (.one P) p (c :: cs) (.ok [] [c] cs)
  | one_fail {P : Char → Bool} {p : Position} {cs : List Char} :
      (∀ c, cs.head? = some c → ¬ P c) → Derives (.one P) p cs .fail
  | text {s cs rest : List Char} {p : Position} :
      cs = s ++ rest → Derives (.text s) p cs (.ok [] s rest)
  | text_fail {s cs : List Char} {p : Position} : ¬ s <+: cs → Derives (.text s) p cs .fail
  | seq {a b : Expr} {p : Position} {cs mid rest w v : List Char} {ps qs : List Pair} :
      Derives a p cs (.ok ps w mid) → Derives b (p.afterAll w) mid (.ok qs v rest) →
      Derives (.seq a b) p cs (.ok (ps ++ qs) (w ++ v) rest)
  | seq_fail_left {a b : Expr} {p : Position} {cs : List Char} :
      Derives a p cs .fail → Derives (.seq a b) p cs .fail
  | seq_fail_right {a b : Expr} {p : Position} {cs mid w : List Char} {ps : List Pair} :
      Derives a p cs (.ok ps w mid) → Derives b (p.afterAll w) mid .fail →
      Derives (.seq a b) p cs .fail
  | choice_left {a b : Expr} {p : Position} {cs rest w : List Char} {ps : List Pair} :
      Derives a p cs (.ok ps w rest) → Derives (.choice a b) p cs (.ok ps w rest)
  | choice_right {a b : Expr} {p : Position} {cs : List Char} {o : Outcome} :
      Derives a p cs .fail → Derives b p cs o → Derives (.choice a b) p cs o
  | optional {a : Expr} {p : Position} {cs rest w : List Char} {ps : List Pair} :
      Derives a p cs (.ok ps w rest) → Derives (.optional a) p cs (.ok ps w rest)
  | optional_none {a : Expr} {p : Position} {cs : List Char} :
      Derives a p cs .fail → Derives (.optional a) p cs (.ok [] [] cs)
  | many {a : Expr} {p : Position} {cs mid rest w v : List Char} {ps qs : List Pair} :
      Derives a p cs (.ok ps w mid) → Derives (.many a) (p.afterAll w) mid (.ok qs v rest) →
      Derives (.many a) p cs (.ok (ps ++ qs) (w ++ v) rest)
  | many_done {a : Expr} {p : Position} {cs : List Char} :
      Derives a p cs .fail → Derives (.many a) p cs (.ok [] [] cs)
  | without {a : Expr} {p : Position} {cs : List Char} :
      Derives a p cs .fail → Derives (.without a) p cs (.ok [] [] cs)
  | without_fail {a : Expr} {p : Position} {cs rest w : List Char} {ps : List Pair} :
      Derives a p cs (.ok ps w rest) → Derives (.without a) p cs .fail
  | silent {r : Rule} {p : Position} {cs : List Char} {o : Outcome} :
      r.isSilent = true → Derives r.body p cs o → Derives (.rule r) p cs o
  | rule {r : Rule} {p : Position} {cs rest w : List Char} {ps : List Pair} :
      r.isSilent = false → Derives r.body p cs (.ok ps w rest) →
      Derives (.rule r) p cs
        (.ok [.mk r ⟨p, p.afterAll w⟩ w (if r.isAtomic then [] else ps)] w rest)
  | rule_fail {r : Rule} {p : Position} {cs : List Char} :
      r.isSilent = false → Derives r.body p cs .fail → Derives (.rule r) p cs .fail

variable {e a b : Expr} {p : Position} {cs rest w : List Char} {ps : List Pair}

/-- **An expression has at most one outcome.** -/
theorem Derives.unique {o o' : Outcome} (h : Derives e p cs o) (h' : Derives e p cs o') :
    o = o' := by
  induction h generalizing o' <;> cases h' <;> grind [List.append_right_inj]

theorem Derives.eq_append (h : Derives e p cs (.ok ps w rest)) : cs = w ++ rest := by
  generalize ho : Outcome.ok ps w rest = o at h
  induction h generalizing ps w rest <;> cases ho <;> grind

/-! ### Outcomes of compound expressions -/

theorem derives_text_iff {s : List Char} :
    Derives (.text s) p cs (.ok ps w rest) ↔ ps = [] ∧ w = s ∧ cs = s ++ rest := by
  constructor
  · intro h
    cases h with
    | text hcs => exact ⟨rfl, rfl, hcs⟩
  · rintro ⟨rfl, rfl, hcs⟩
    exact .text hcs

theorem derives_seq_iff :
    Derives (.seq a b) p cs (.ok ps w rest) ↔
      ∃ qs v mid rs u, Derives a p cs (.ok qs v mid) ∧
        Derives b (p.afterAll v) mid (.ok rs u rest) ∧ ps = qs ++ rs ∧ w = v ++ u := by
  constructor
  · intro h
    cases h with
    | seq ha hb => exact ⟨_, _, _, _, _, ha, hb, rfl, rfl⟩
  · rintro ⟨qs, v, mid, rs, u, ha, hb, rfl, rfl⟩
    exact .seq ha hb

theorem derives_choice_iff :
    Derives (.choice a b) p cs (.ok ps w rest) ↔
      Derives a p cs (.ok ps w rest) ∨
        Derives a p cs .fail ∧ Derives b p cs (.ok ps w rest) := by
  constructor
  · intro h
    cases h with
    | choice_left ha => exact .inl ha
    | choice_right ha hb => exact .inr ⟨ha, hb⟩
  · rintro (ha | ⟨ha, hb⟩)
    · exact .choice_left ha
    · exact .choice_right ha hb

theorem derives_optional_iff :
    Derives (.optional a) p cs (.ok ps w rest) ↔
      Derives a p cs (.ok ps w rest) ∨
        Derives a p cs .fail ∧ ps = [] ∧ w = [] ∧ rest = cs := by
  constructor
  · intro h
    cases h with
    | optional ha => exact .inl ha
    | optional_none ha => exact .inr ⟨ha, rfl, rfl, rfl⟩
  · rintro (ha | ⟨ha, rfl, rfl, rfl⟩)
    · exact .optional ha
    · exact .optional_none ha

theorem derives_without_iff :
    Derives (.without a) p cs (.ok ps w rest) ↔
      Derives a p cs .fail ∧ ps = [] ∧ w = [] ∧ rest = cs := by
  constructor
  · intro h
    cases h with
    | without ha => exact ⟨ha, rfl, rfl, rfl⟩
  · rintro ⟨ha, rfl, rfl, rfl⟩
    exact .without ha

theorem derives_silent_iff {r : Rule} (hr : r.isSilent = true) {o : Outcome} :
    Derives (.rule r) p cs o ↔ Derives r.body p cs o := by
  constructor
  · intro h
    cases h with
    | silent _ h => exact h
    | rule hr' _ => rw [hr] at hr'; cases hr'
    | rule_fail hr' _ => rw [hr] at hr'; cases hr'
  · exact .silent hr

theorem derives_rule_iff {r : Rule} (hr : r.isSilent = false) :
    Derives (.rule r) p cs (.ok ps w rest) ↔
      ∃ inner, Derives r.body p cs (.ok inner w rest) ∧
        ps = [.mk r ⟨p, p.afterAll w⟩ w (if r.isAtomic then [] else inner)] := by
  constructor
  · intro h
    cases h with
    | silent hr' _ => rw [hr] at hr'; cases hr'
    | rule _ h => exact ⟨_, h, rfl⟩
  · rintro ⟨inner, h, rfl⟩
    exact .rule hr h

/-! ### Expressions that have an outcome -/

/-- On every text shorter than `n` the expression matches or fails. -/
def TotalBelow (n : Nat) (e : Expr) : Prop := ∀ p cs, cs.length < n → ∃ o, Derives e p cs o

variable {n : Nat}

theorem totalBelow_text (s : List Char) : TotalBelow n (.text s) := by
  intro p cs _
  by_cases h : s <+: cs
  · obtain ⟨rest, rfl⟩ := h
    exact ⟨_, .text rfl⟩
  · exact ⟨_, .text_fail h⟩

theorem Derives.length_rest (h : Derives e p cs (.ok ps w rest)) :
    cs.length = w.length + rest.length := by
  rw [h.eq_append, List.length_append]

theorem TotalBelow.seq (ha : TotalBelow n a) (hb : TotalBelow n b) : TotalBelow n (.seq a b) := by
  intro p cs hlen
  obtain ⟨o, hoa⟩ := ha p cs hlen
  cases o with
  | fail => exact ⟨_, .seq_fail_left hoa⟩
  | ok ps w mid =>
      have hmid := hoa.length_rest
      obtain ⟨o, hob⟩ := hb (p.afterAll w) mid (by omega)
      cases o with
      | fail => exact ⟨_, .seq_fail_right hoa hob⟩
      | ok qs v rest => exact ⟨_, .seq hoa hob⟩

/-- Behind a character less of the text is left. -/
theorem TotalBelow.text_seq {c : Char} (h : TotalBelow n e) :
    TotalBelow (n + 1) (.seq (.text [c]) e) := by
  intro p cs hlen
  obtain ⟨o, ho⟩ := totalBelow_text [c] p cs hlen
  cases o with
  | fail => exact ⟨_, .seq_fail_left ho⟩
  | ok ps w mid =>
      obtain ⟨rfl, rfl, rfl⟩ := derives_text_iff.mp ho
      obtain ⟨o, hoe⟩ := h (p.afterAll [c]) mid (by simpa using hlen)
      cases o with
      | fail => exact ⟨_, .seq_fail_right ho hoe⟩
      | ok qs v rest => exact ⟨_, .seq ho hoe⟩

theorem TotalBelow.choice (ha : TotalBelow n a) (hb : TotalBelow n b) :
    TotalBelow n (.choice a b) := by
  intro p cs hlen
  obtain ⟨o, hoa⟩ := ha p cs hlen
  cases o with
  | fail =>
      obtain ⟨o, hob⟩ := hb p cs hlen
      exact ⟨o, .choice_right hoa hob⟩
  | ok ps w rest => exact ⟨_, .choice_left hoa⟩

theorem TotalBelow.optional (ha : TotalBelow n a) : TotalBelow n (.optional a) := by
  intro p cs hlen
  obtain ⟨o, hoa⟩ := ha p cs hlen
  cases o with
  | fail => exact ⟨_, .optional_none hoa⟩
  | ok ps w rest => exact ⟨_, .optional hoa⟩

theorem TotalBelow.without (ha : TotalBelow n a) : TotalBelow n (.without a) := by
  intro p cs hlen
  obtain ⟨o, hoa⟩ := ha p cs hlen
  cases o with
  | fail => exact ⟨_, .without hoa⟩
  | ok ps w rest => exact ⟨_, .without_fail hoa⟩

/-- A repetition comes to an end if every match takes a character. -/
theorem TotalBelow.many (ha : TotalBelow n a)
    (hne : ∀ {p cs ps w rest}, Derives a p cs (.ok ps w rest) → w ≠ []) :
    TotalBelow n (.many a) := by
  intro p cs hlen
  induction hm : cs.length using Nat.strongRecOn generalizing p cs with
  | _ m ih =>
      obtain ⟨o, hoa⟩ := ha p cs hlen
      cases o with
      | fail => exact ⟨_, .many_done hoa⟩
      | ok ps w mid =>
          have hmid := hoa.length_rest
          have hw := List.length_pos_iff.mpr (hne hoa)
          obtain ⟨o, hmany⟩ := ih mid.length (by omega) (p.afterAll w) mid (by omega) rfl
          cases o with
          | fail => cases hmany
          | ok qs v rest => exact ⟨_, .many hoa hmany⟩

theorem TotalBelow.rule {r : Rule} (h : TotalBelow n r.body) : TotalBelow n (.rule r) := by
  intro p cs hlen
  obtain ⟨o, ho⟩ := h p cs hlen
  cases hr : r.isSilent with
  | true => exact ⟨o, .silent hr ho⟩
  | false =>
      cases o with
      | fail => exact ⟨_, .rule_fail hr ho⟩
      | ok ps w rest => exact ⟨_, .rule hr ho⟩

/-- What has an outcome and never matches fails. -/
theorem TotalBelow.fail (h : TotalBelow (cs.length + 1) e)
    (hno : ∀ ps w rest, ¬ Derives e p cs (.ok ps w rest)) : Derives e p cs .fail := by
  obtain ⟨o, ho⟩ := h p cs (Nat.lt_succ_self _)
  cases o with
  | fail => exact ho
  | ok ps w rest => exact absurd ho (hno ps w rest)

/-! ### Classes of characters -/

/-- The expression matches one character of a class and leaves no pair. -/
structure IsClass (a : Expr) (P : Char → Prop) : Prop where
  ok : ∀ {p : Position} {c : Char} {cs : List Char},
    P c → Derives a p (c :: cs) (.ok [] [c] cs)
  fail : ∀ {p : Position} {cs : List Char},
    (∀ c, cs.head? = some c → ¬ P c) → Derives a p cs .fail

theorem isClass_one (P : Char → Bool) : IsClass (.one P) fun c => P c = true :=
  ⟨.one, .one_fail⟩

theorem isClass_oneOf (xs : List Char) : IsClass (.oneOf xs) (· ∈ xs) := by
  constructor
  · intro p c cs hc
    exact .one (List.contains_iff_mem.mpr hc)
  · intro p cs hcs
    exact .one_fail fun c hc h => hcs c hc (List.contains_iff_mem.mp h)

theorem isClass_text (d : Char) : IsClass (.text [d]) (· = d) := by
  constructor
  · rintro p c cs rfl
    exact .text rfl
  · intro p cs hcs
    refine .text_fail ?_
    rintro ⟨rest, rfl⟩
    exact hcs d rfl rfl

theorem IsClass.except {Q : Char → Prop} (h : IsClass a Q) :
    IsClass (.seq (.without a) .any) fun c => ¬ Q c := by
  constructor
  · intro p c cs hc
    refine .seq (.without (h.fail ?_)) (.one rfl)
    rintro d hd
    cases hd
    exact hc
  · intro p cs hcs
    cases cs with
    | nil => exact .seq_fail_right (.without (h.fail (by simp))) (.one_fail (by simp))
    | cons c cs =>
        have hc : Q c := Classical.not_not.mp (hcs c rfl)
        exact .seq_fail_left (.without_fail (h.ok hc))

theorem IsClass.rule {P : Char → Prop} {r : Rule} (hr : r.isSilent = true)
    (h : IsClass r.body P) : IsClass (.rule r) P :=
  ⟨fun hc => .silent hr (h.ok hc), fun hcs => .silent hr (h.fail hcs)⟩

theorem IsClass.totalBelow {P : Char → Prop} (h : IsClass a P) : TotalBelow n a := by
  intro p cs _
  cases cs with
  | nil => exact ⟨_, h.fail (by simp)⟩
  | cons c cs =>
      by_cases hc : P c
      · exact ⟨_, h.ok hc⟩
      · exact ⟨_, h.fail (by simpa using hc)⟩

end Peg
end FormLower
