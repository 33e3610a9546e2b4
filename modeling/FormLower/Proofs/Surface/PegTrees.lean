import FormLower.Proofs.Surface.PegReading
import FormLower.Proofs.Surface.Spans

/-! # Trees of pairs

The pairs that the program rule leaves are turned into trees one by one: a head is told by its rule,
and the text of a number by whether it has a point in it.  Some branches are there for pairs and
numerals that the grammar does not give, and their errors are `Peg.readForm`'s own.

Every pair is cut out of the text at its extent (`Peg.cut_of_derives`), so that a head is quoted as
it is written, and the trees or the error are those that are read from the data of the text
(`Peg.readProgram_eq_read`). -/

namespace FormLower

open Grammar

/-- A head that is no symbol is quoted as it is written. -/
theorem Script.head_eq_error {s : Script} {d : Datum} {before found after : List Char}
    (hno : ∀ w e, d = .atom w e → ¬ IsSymbol w)
    (hcuts : d.extent.Cuts s.content.toList before found after) :
    s.head d = .error (s.errorAt d.extent (.headNotSymbol (String.ofList found))) := by
  have hnotSymbol : Script.head.notSymbol s d =
      s.errorAt d.extent (.headNotSymbol (String.ofList found)) := by
    rw [Script.head.notSymbol, Script.excerpt, hcuts.excerpt]
  cases d with
  | atom w e =>
      have hw : ¬ isSymbol w = true := fun hw => hno w e rfl (isSymbol_iff.mp hw)
      rw [Script.head, if_neg hw, hnotSymbol]
  | string v e => rw [Script.head, hnotSymbol]; simp
  | group b items e => rw [Script.head, hnotSymbol]; simp

namespace Peg

/-! ### Reading pairs -/

def Rule.name : Rule → String
  | .whitespace => "WHITESPACE"
  | .comment => "COMMENT"
  | .program => "program"
  | .form => "form"
  | .expression => "expression"
  | .list => "list"
  | .string => "string"
  | .strInner => "str_inner"
  | .strChar => "str_char"
  | .boolean => "boolean"
  | .number => "number"
  | .symbol => "symbol"
  | .symbolChar => "symbol_char"
  | .endOfInput => "EOI"

def Pair.rule : Pair → Rule
  | .mk r _ _ _ => r

def Pair.text : Pair → List Char
  | .mk _ _ w _ => w

/-- The value of what stands between quotes; a character after a backslash that is no escape stands
for itself. -/
def unescape : List Char → List Char
  | '\\' :: 'n' :: cs => '\n' :: unescape cs
  | '\\' :: 't' :: cs => '\t' :: unescape cs
  | '\\' :: 'r' :: cs => '\r' :: unescape cs
  | '\\' :: c :: cs => c :: unescape cs
  | c :: cs => c :: unescape cs
  | [] => []

section
variable (s : Script)

def readNumber (e : Extent) (w : List Char) : Except ReadError Source :=
  if '.' ∈ w then
    match Binary64.read? w with
    | some x => .ok (.leaf (.number (.float x)) (e.inFile s.name))
    | none => .error (s.errorAt e
        (.stated ("Invalid float literal `" ++ String.ofList w ++ "`.") "hyforge.reader"))
  else
    match (readInt? w).bind Number.ofInt? with
    | some n => .ok (.leaf (.number n) (e.inFile s.name))
    | none => .error (s.errorAt e (.integerOutOfRange (String.ofList w)))

mutual

def readForm : Pair → Except ReadError Source
  | .mk .expression e _ [] => .error (s.errorAt e .emptyCall)
  | .mk .expression e _ (.mk r e' h _ :: args) =>
    if r = .symbol then do
      let as ← readForms args
      .ok (.call (String.ofList h) as (e.inFile s.name))
    else .error (s.errorAt e' (.headNotSymbol (String.ofList h)))
  | .mk .list e _ inner => do
    let es ← readForms inner
    .ok (.list es (e.inFile s.name))
  | .mk .string e _ inner =>
    let raw := (inner.head?.map Pair.text).getD []
    .ok (.leaf (.string (String.ofList (unescape raw))) (e.inFile s.name))
  | .mk .boolean e w _ => .ok (.leaf (.bool (w = ['t', 'r', 'u', 'e'])) (e.inFile s.name))
  | .mk .number e w _ => readNumber s e w
  | .mk .symbol e w _ => .ok (.leaf (.symbol (String.ofList w)) (e.inFile s.name))
  | .mk r e _ _ =>
    .error (s.errorAt e (.stated ("Unexpected rule " ++ r.name ++ ".") "hyforge.reader"))

def readForms : List Pair → Except ReadError (List Source)
  | [] => .ok []
  | pair :: ps => do
    let t ← readForm pair
    let ts ← readForms ps
    .ok (t :: ts)

end

/-- The trees of a program, whose last pair is the end of the text. -/
def readProgram : List Pair → Except ReadError (List Source)
  | [] => .ok []
  | .mk _ _ _ inner :: _ => readForms s (inner.filter fun pair => pair.rule ≠ .endOfInput)

end

variable {e : Expr} {p : Position} {cs rest w text : List Char} {ps : List Pair}
variable {ds : List Datum} {r : Rule}

/-! ### Texts of pairs -/

/-- Pairs stand at their extents in a text, and so do the pairs inside them. -/
inductive Cut (text : List Char) : List Pair → Prop
  | nil : Cut text []
  | cons {r : Rule} {e : Extent} {w before after : List Char} {inner ps : List Pair} :
      e.Cuts text before w after → Cut text inner → Cut text ps → Cut text (.mk r e w inner :: ps)

theorem Cut.append {qs : List Pair} (h : Cut text ps) (h' : Cut text qs) : Cut text (ps ++ qs) := by
  induction h with
  | nil => exact h'
  | cons hcuts hinner _ _ ih => exact .cons hcuts hinner ih

theorem Cut.tail {pair : Pair} (h : Cut text (pair :: ps)) : Cut text ps := by
  cases h with
  | cons _ _ hrest => exact hrest

theorem Cut.of_append {qs : List Pair} (h : Cut text (ps ++ qs)) : Cut text ps := by
  induction ps with
  | nil => exact .nil
  | cons pair ps ih =>
      cases h with
      | cons hcuts hinner hrest => exact .cons hcuts hinner (ih hrest)

/-- The pairs of a match stand where they were matched. -/
theorem cut_of_derives (h : Derives e p cs (.ok ps w rest)) (hat : At text p cs) :
    Cut text ps := by
  generalize ho : Outcome.ok ps w rest = o at h
  induction h generalizing ps w rest with
  | @seq a b p cs mid rest w v qs rs ha hb iha ihb =>
      cases ho
      rw [ha.eq_append] at hat
      exact (iha (ha.eq_append ▸ hat) rfl).append (ihb hat.append rfl)
  | @many a p cs mid rest w v qs rs ha hb iha ihb =>
      cases ho
      rw [ha.eq_append] at hat
      exact (iha (ha.eq_append ▸ hat) rfl).append (ihb hat.append rfl)
  | choice_left _ ih => exact ih hat ho
  | choice_right _ _ _ ih => exact ih hat ho
  | optional _ ih => exact ih hat ho
  | silent _ _ ih => exact ih hat ho
  | @rule r p cs rest w qs _ hbody ih =>
      cases ho
      have hinner := ih hat rfl
      obtain ⟨before, rfl, rfl⟩ := hat
      have hcuts : Extent.Cuts ⟨Position.first.afterAll before,
          (Position.first.afterAll before).afterAll w⟩ (before ++ cs) before w rest := by
        refine ⟨by rw [hbody.eq_append], ?_, ?_⟩
        · rw [Position.advance_eq]
        · rw [Position.advance_eq, Position.afterAll_append]
      refine .cons hcuts ?_ .nil
      split
      · exact .nil
      · exact hinner
  | _ => cases ho <;> exact .nil

/-! ### Words and strings -/

theorem unescape_of_quoted {raw value : List Char} (h : Quoted raw value) :
    unescape raw = value := by
  induction h with
  | nil => rfl
  | @plain c raw value _ hslash _ ih =>
      have hc : unescape (c :: raw) = c :: unescape raw := by
        rw [unescape]
        all_goals simp [hslash]
      rw [hc, ih]
  | @escape c d raw value hmem _ ih =>
      simp only [escapes, List.mem_cons, Prod.mk.injEq, List.not_mem_nil, or_false] at hmem
      rcases hmem with ⟨rfl, rfl⟩ | ⟨rfl, rfl⟩ | ⟨rfl, rfl⟩ | ⟨rfl, rfl⟩ | ⟨rfl, rfl⟩
      all_goals rw [unescape, ih]
      all_goals simp

theorem readInt?_of_integerText {i : Int} (h : IntegerText w i) : readInt? w = some i := by
  have hdigits : ∀ {ds : List Char}, IsDigits ds → ds.all Char.isDigit = true := by
    intro ds hds
    exact List.all_eq_true.mpr hds.2
  cases h with
  | plain hds =>
      obtain ⟨c, cs, rfl, hc⟩ := isDigits_head hds
      have hsign : spanSign (c :: cs) = (false, c :: cs) := by
        have hc' : c ≠ '-' ∧ c ≠ '+' := by
          constructor <;> rintro rfl <;> exact absurd hc (by decide)
        simp [spanSign, hc'.1, hc'.2]
      unfold readInt?
      simp only [hsign]
      rw [if_pos ⟨hds.1, hdigits hds⟩, digitsValue_eq_decimalValue]
      rfl
  | @minus ds hds =>
      unfold readInt?
      simp only [spanSign]
      rw [if_pos ⟨hds.1, hdigits hds⟩, digitsValue_eq_decimalValue]
      rfl

variable {s : Script}

/-- A word is read to the leaf it stands for, or is an integer that does not fit. -/
theorem readForm_atom {e : Extent} (hr : AtomRule r w) :
    readForm s (.mk r e w []) = s.tree (.atom (String.ofList w) e) := by
  rw [Script.tree, Script.leaf]
  cases hleaf : Leaf.ofAtom? (String.ofList w) with
  | some v =>
      cases (atomLeaf_iff_wordLeaf hr).mp (ofAtom?_eq_some_iff.mp hleaf) with
      | boolean => rw [readForm]
      | @int _ k hmem hw =>
          have hint : Number.ofInt? k.toInt = some (.int k) := ofInt?_eq_some_iff.mpr ⟨k, rfl, rfl⟩
          rw [readForm, readNumber, if_neg hmem, readInt?_of_integerText hw, Option.bind_some, hint]
      | float hmem hx => rw [readForm, readNumber, if_pos hmem, hx]
      | symbol => rw [readForm]
  | none =>
      obtain ⟨i, hw, hrange⟩ := ofAtom?_eq_none_iff.mp hleaf
      rw [String.toList_ofList] at hw
      have hnone : Number.ofInt? i = none := by
        rw [Number.ofInt?, if_neg]
        exact hrange
      cases hr with
      | boolean hbool => exact absurd hbool (not_boolWord_of_numberShaped (.inl ⟨i, hw⟩))
      | number _ =>
          rw [readForm, readNumber, if_neg (not_mem_of_integerText hw), readInt?_of_integerText hw,
            Option.bind_some, hnone]
      | symbol hsymbol => exact absurd (.inl ⟨i, hw⟩) (isSymbol_ofList_iff.mp hsymbol).2

/-! ### Forms -/

theorem Stands.tail {pair : Pair} {d : Datum} (h : Stands (pair :: ps) (d :: ds)) :
    Stands ps ds := by
  cases h with
  | string _ hrest => exact hrest
  | atom _ hrest => exact hrest
  | group _ hrest => exact hrest

/-- The head of a call is told by the rule of its pair. -/
theorem head_eq_of_stands {e : Extent} {h : List Char} {inner args : List Pair} {d : Datum}
    {items : List Datum} (hstands : Stands (.mk r e h inner :: args) (d :: items))
    (hcut : Cut s.content.toList (.mk r e h inner :: args)) :
    s.head d = if r = .symbol then .ok (String.ofList h)
      else .error (s.errorAt e (.headNotSymbol (String.ofList h))) := by
  cases hcut with
  | cons hcuts _ _ =>
      cases hstands with
      | string _ _ =>
          rw [if_neg (by decide)]
          exact Script.head_eq_error (d := .string _ _) (fun _ _ heq => by cases heq) hcuts
      | atom hr _ =>
          cases hr with
          | symbol hw =>
              rw [if_pos rfl]
              exact Script.head_eq_ok_iff.mpr ⟨_, rfl, hw⟩
          | boolean hbool =>
              rw [if_neg (by decide)]
              refine Script.head_eq_error (d := .atom _ _) (fun w e heq hw => ?_) hcuts
              cases heq
              exact (isSymbol_ofList_iff.mp hw).1 hbool
          | number hnumber =>
              rw [if_neg (by decide)]
              refine Script.head_eq_error (d := .atom _ _) (fun w e heq hw => ?_) hcuts
              cases heq
              exact (isSymbol_ofList_iff.mp hw).2 hnumber
      | @group b _ _ _ _ _ _ _ _ =>
          rw [if_neg (by cases b <;> decide)]
          exact Script.head_eq_error (d := .group _ _ _) (fun _ _ heq => by cases heq) hcuts

/-- The first pair of forms whose first datum is a group. -/
theorem Stands.exists_group {b : Bracket} {items : List Datum} {e : Extent}
    (h : Stands ps (.group b items e :: ds)) (hcut : Cut text ps) :
    ∃ w inner rest, ps = .mk (groupRule b) e w inner :: rest ∧ Stands inner items ∧
      Cut text inner ∧ Stands rest ds ∧ Cut text rest := by
  cases h with
  | group hinner hrest =>
      cases hcut with
      | cons _ hcutinner hcutrest => exact ⟨_, _, _, rfl, hinner, hcutinner, hrest, hcutrest⟩

theorem readForms_cons {pair : Pair} {d : Datum} (hform : readForm s pair = s.tree d)
    (hrest : readForms s ps = s.trees ds) : readForms s (pair :: ps) = s.trees (d :: ds) := by
  rw [readForms, Script.trees, hform, hrest]

/-- **The trees of pairs are those of the data that they stand for**, and so are the errors. -/
theorem readForms_eq_trees (ds : List Datum) : ∀ {ps}, Stands ps ds → Cut s.content.toList ps →
    readForms s ps = s.trees ds := by
  induction ds using Datum.reading_induction with
  | nil =>
      intro ps h _
      cases h
      rw [readForms, Script.trees]
  | string v e ds ih =>
      intro ps h hcut
      cases h with
      | @string p raw value ps _ hquoted hrest =>
          refine readForms_cons ?_ (ih hrest hcut.tail)
          rw [stringPair, readForm, Script.tree]
          simp only [List.head?_cons, Option.map_some, Option.getD_some, Pair.text]
          rw [unescape_of_quoted hquoted]
  | atom w e ds ih =>
      intro ps h hcut
      cases h with
      | atom hr hrest => exact readForms_cons (readForm_atom hr) (ih hrest hcut.tail)
  | list items e ds ihitems ih =>
      intro ps h hcut
      obtain ⟨w, inner, rest, rfl, hinner, hcutinner, hrest, hcutrest⟩ := h.exists_group hcut
      refine readForms_cons ?_ (ih hrest hcutrest)
      rw [groupRule, readForm, Script.tree, ihitems hinner hcutinner]
  | empty e ds ih =>
      intro ps h hcut
      obtain ⟨w, inner, rest, rfl, hinner, -, hrest, hcutrest⟩ := h.exists_group hcut
      cases hinner
      refine readForms_cons ?_ (ih hrest hcutrest)
      rw [groupRule, readForm, Script.tree]
  | call d items e ds ihitems ih =>
      intro ps h hcut
      obtain ⟨w, inner, rest, rfl, hinner, hcutinner, hrest, hcutrest⟩ := h.exists_group hcut
      refine readForms_cons ?_ (ih hrest hcutrest)
      cases inner with
      | nil => cases hinner
      | cons first args =>
          obtain ⟨r, e', h, more⟩ := first
          have hargs := ihitems hinner.tail hcutinner.tail
          rw [groupRule, readForm, Script.tree, head_eq_of_stands hinner hcutinner, hargs]
          split <;> rfl

/-- The pairs of forms are those before the end of the text. -/
theorem Stands.filter (h : Stands ps ds) (e : Extent) :
    (ps ++ [Pair.mk .endOfInput e [] []]).filter (fun pair => pair.rule ≠ .endOfInput) = ps := by
  induction h with
  | nil => rfl
  | string _ _ ih => rw [List.cons_append, List.filter_cons_of_pos (by rfl), ih]
  | atom hr _ ih =>
      rw [List.cons_append, List.filter_cons_of_pos (by cases hr <;> rfl), ih]
  | @group b _ _ _ _ _ _ _ _ _ ih =>
      rw [List.cons_append, List.filter_cons_of_pos (by cases b <;> rfl), ih]

/-- **A script is read by turning the pairs of its program into trees.** -/
theorem readProgram_eq_read (h : Derives (.rule .program) .first s.content.toList
    (.ok ps w rest)) : readProgram s ps = s.read := by
  have hcut := cut_of_derives h ⟨[], rfl, rfl⟩
  obtain ⟨e, qs, e', rfl, ts, ds, hsplits, hgroups, hstands⟩ := parsed_of_program h
  rw [readProgram, hstands.filter, Script.read, ofText_eq_ok_iff.mpr ⟨ts, hsplits, hgroups⟩]
  cases hcut with
  | cons _ hinner _ => exact readForms_eq_trees ds hstands hinner.of_append

end Peg
end FormLower
