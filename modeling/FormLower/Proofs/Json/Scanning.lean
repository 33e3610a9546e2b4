import FormLower.Proofs.Json.Numbers
import Mathlib.Data.List.Forall2
import Mathlib.Tactic.IntervalCases

/-! # Scanning what is written

A value is written as the text of its tokens, with blanks between some of them.  A word has no end
of its own: it ends where something else begins, so a scan goes on in the same way whether it is
between tokens or at the end of a word (`Scan.Settles`).  What is written for a value in either
style is scanned to the tokens of the value (`tokens?_render`). -/

namespace FormLower
namespace Json

namespace Scan

variable {s : Scan} {ts : List Token} {c : Char}

/-! ### Ends of tokens -/

/-- The scan has come to these tokens, the latest first, and any other token may begin. -/
inductive Settles : Scan → List Token → Prop
  | between (ts : List Token) : Settles ⟨.between, ts⟩ ts
  | word {chars : List Char} {value : Json} {ts : List Token} :
      scalarOfWord? chars.reverse = some value → Settles ⟨.word chars, ts⟩ (.scalar value :: ts)

theorem Settles.finish (h : s.Settles ts) : s.finish = some ts.reverse := by
  cases h with
  | between => rfl
  | word hvalue => simp [Scan.finish, hvalue]

/-- Whether a character ends a word in front of it. -/
def endsWord (c : Char) : Bool := (mark? c).isSome || isBlank c || c = '"'

/-- A character that ends words begins a token or stands between tokens. -/
theorem Settles.step (h : s.Settles ts) (hc : endsWord c = true) : s.step c = begin ts c := by
  cases h with
  | between => rfl
  | word hvalue =>
      unfold endsWord at hc
      simp only [Scan.step, hc, if_true, hvalue]

theorem Settles.mark {t : Token} (h : s.Settles ts) (hc : mark? c = some t) :
    s.step c = ⟨.between, t :: ts⟩ := by
  rw [h.step (by simp [endsWord, hc]), begin, hc]

theorem Settles.blank (h : s.Settles ts) (hc : isBlank c = true) : s.step c = ⟨.between, ts⟩ := by
  have hmark : mark? c = none := by
    simp only [isBlank, Bool.or_eq_true, decide_eq_true_eq] at hc
    rcases hc with ((rfl | rfl) | rfl) | rfl <;> rfl
  rw [h.step (by simp [endsWord, hc]), begin, hmark, if_pos hc]

/-- Blanks leave a scan where it is, or end a word. -/
theorem Settles.blanks {bs : List Char} (h : s.Settles ts) (hbs : ∀ b ∈ bs, isBlank b = true) :
    (bs.foldl Scan.step s).Settles ts := by
  induction bs generalizing s with
  | nil => exact h
  | cons b bs ih =>
      obtain ⟨hb, hbs⟩ := List.forall_mem_cons.mp hbs
      rw [List.foldl_cons, h.blank hb]
      exact ih (.between ts) hbs

theorem between_blanks {bs : List Char} (hbs : ∀ b ∈ bs, isBlank b = true) :
    bs.foldl Scan.step ⟨.between, ts⟩ = ⟨.between, ts⟩ := by
  induction bs with
  | nil => rfl
  | cons b bs ih =>
      obtain ⟨hb, hbs⟩ := List.forall_mem_cons.mp hbs
      rw [List.foldl_cons, (Settles.between ts).blank hb, ih hbs]

theorem Settles.mark_blanks {t : Token} {bs : List Char} (h : s.Settles ts)
    (hc : mark? c = some t) (hbs : ∀ b ∈ bs, isBlank b = true) :
    (c :: bs).foldl Scan.step s = ⟨.between, t :: ts⟩ := by
  rw [List.foldl_cons, h.mark hc, between_blanks hbs]

/-! ### Words -/

theorem foldl_word {cs chars : List Char} (hcs : ∀ c ∈ cs, endsWord c = false) :
    cs.foldl Scan.step ⟨.word chars, ts⟩ = ⟨.word (cs.reverse ++ chars), ts⟩ := by
  induction cs generalizing chars with
  | nil => rfl
  | cons c cs ih =>
      obtain ⟨hc, hcs⟩ := List.forall_mem_cons.mp hcs
      have hstep : Scan.step ⟨.word chars, ts⟩ c = ⟨.word (c :: chars), ts⟩ := by
        unfold endsWord at hc
        simp [Scan.step, hc]
      rw [List.foldl_cons, hstep, ih hcs, List.reverse_cons, List.append_assoc]
      rfl

theorem settles_word {w : List Char} {value : Json} (h : scalarOfWord? w = some value)
    (hne : w ≠ []) (hw : ∀ c ∈ w, endsWord c = false) :
    (w.foldl Scan.step ⟨.between, ts⟩).Settles (.scalar value :: ts) := by
  obtain ⟨c, cs, rfl⟩ := List.exists_cons_of_ne_nil hne
  obtain ⟨hc, hcs⟩ := List.forall_mem_cons.mp hw
  have hstep : Scan.step ⟨.between, ts⟩ c = ⟨.word [c], ts⟩ := by
    simp only [endsWord, Bool.or_eq_false_iff, Option.isSome_eq_false_iff,
      Option.isNone_iff_eq_none, decide_eq_false_iff_not] at hc
    simp [Scan.step, begin, hc]
  rw [List.foldl_cons, hstep, foldl_word hcs]
  refine .word ?_
  simpa using h

/-! ### Strings -/

/-- The digits of a code unit, which is no half of a character. -/
theorem unit_hexQuad {chars : List Char} {n : Nat} (hn : n < 0x20) :
    (hexQuad n).foldl Scan.step ⟨.unit chars none 0 0, ts⟩ =
      ⟨.string (Char.ofNat n :: chars), ts⟩ := by
  interval_cases n <;> rfl

theorem string_escapeChar (c : Char) (chars : List Char) :
    (escapeChar c).foldl Scan.step ⟨.string chars, ts⟩ = ⟨.string (c :: chars), ts⟩ := by
  unfold escapeChar
  split
  · next h => subst h; rfl
  split
  · next h => subst h; rfl
  split
  · next h => subst h; rfl
  split
  · next h => subst h; rfl
  split
  · next h => subst h; rfl
  split
  · next h => subst h; rfl
  split
  · next h => subst h; rfl
  split
  · next hsmall =>
      have hunit := @unit_hexQuad ts chars c.toNat hsmall
      rw [Char.ofNat_toNat] at hunit
      exact hunit
  · next hquote hbackslash _ _ _ _ _ hlarge =>
      simp [Scan.step, hquote, hbackslash, hlarge]

theorem string_escapes (cs chars : List Char) :
    (cs.flatMap escapeChar).foldl Scan.step ⟨.string chars, ts⟩ =
      ⟨.string (cs.reverse ++ chars), ts⟩ := by
  induction cs generalizing chars with
  | nil => rfl
  | cons c cs ih =>
      rw [List.flatMap_cons, List.foldl_append, string_escapeChar, ih, List.reverse_cons,
        List.append_assoc]
      rfl

theorem Settles.string (h : s.Settles ts) (value : String) :
    (stringText value).toList.foldl Scan.step s = ⟨.between, .string value :: ts⟩ := by
  have hbegin : s.step '"' = ⟨.string [], ts⟩ := by
    rw [h.step rfl]
    rfl
  rw [stringText, String.toList_ofList, List.cons_append, List.foldl_cons, hbegin,
    List.foldl_append, string_escapes]
  simp [Scan.step]

end Scan

/-! ### Words of scalars -/

theorem Scan.endsWord_of_isNumberChar {c : Char} (h : IsNumberChar c) : endsWord c = false := by
  rcases h with hdigit | hmem
  · have hne : ∀ k, k.isDigit = false → c ≠ k := by
      rintro k hk rfl
      rw [hk] at hdigit
      cases hdigit
    have hmark : mark? c = none := by
      unfold mark?
      split <;> first | rfl | cases hdigit
    simp [endsWord, isBlank, hmark, hne ' ' rfl, hne '\t' rfl, hne '\n' rfl, hne '\r' rfl,
      hne '"' rfl]
  · simp only [List.mem_cons, List.not_mem_nil, or_false] at hmem
    rcases hmem with rfl | rfl | rfl | rfl | rfl <;> rfl

theorem scalarOfWord?_number {w : List Char} {j : Json} (h : numberOfWord? w = some j) :
    scalarOfWord? w = some j := by
  unfold scalarOfWord?
  split
  · next hw => subst hw; cases h
  split
  · next hw => subst hw; cases h
  split
  · next hw => subst hw; cases h
  · exact h

theorem settles_number {w : List Char} {j : Json} {ts : List Token}
    (h : numberOfWord? w = some j) :
    (w.foldl Scan.step ⟨.between, ts⟩).Settles (.scalar j :: ts) := by
  refine Scan.settles_word (scalarOfWord?_number h) ?_ fun c hc =>
    Scan.endsWord_of_isNumberChar (isNumberChar_of_word h c hc)
  rintro rfl
  cases h

/-! ### The tokens of a value -/

mutual

/-- The tokens of a value. -/
def tokens : Json → List Token
  | .string value => [.string value]
  | .array items => .openArray :: [.comma].intercalate (tokensOfItems items) ++ [.closeArray]
  | .object members =>
    .openObject :: [.comma].intercalate (tokensOfMembers members) ++ [.closeObject]
  | scalar => [.scalar scalar]

/-- The tokens of each item of an array. -/
def tokensOfItems : List Json → List (List Token)
  | [] => []
  | item :: items => item.tokens :: tokensOfItems items

/-- The tokens of each member of an object. -/
def tokensOfMembers : List (String × Json) → List (List Token)
  | [] => []
  | (name, value) :: members =>
    (.string name :: .colon :: value.tokens) :: tokensOfMembers members

end

/-- A value that can be written: its integers fit and its floats are finite. -/
inductive Storable : Json → Prop
  | null : Storable .null
  | bool (value : Bool) : Storable (.bool value)
  | integer {value : Int} : FitsInteger value → Storable (.integer value)
  | float {value : Binary64} : value.isFinite → Storable (.float value)
  | string (value : String) : Storable (.string value)
  | array {items : List Json} : (∀ item ∈ items, Storable item) → Storable (.array items)
  | object {members : List (String × Json)} :
      (∀ member ∈ members, Storable member.2) → Storable (.object members)

/-- Nothing but blanks is written between tokens. -/
structure Style.IsBlank (style : Style) : Prop where
  lineBreak : ∀ depth, ∀ c ∈ (style.lineBreak depth).toList, Scan.isBlank c = true
  colon : ∃ bs, style.colon.toList = ':' :: bs ∧ ∀ c ∈ bs, Scan.isBlank c = true

theorem Style.isBlank_compact : Style.compact.IsBlank where
  lineBreak := by simp [Style.compact]
  colon := ⟨[], rfl, by simp⟩

theorem Style.isBlank_pretty : Style.pretty.IsBlank where
  lineBreak := by
    intro depth c hc
    have hmem : c = '\n' ∨ c ∈ List.replicate (2 * depth) ' ' := by
      simpa [Style.pretty] using hc
    rcases hmem with rfl | hmem
    · rfl
    · rw [List.eq_of_mem_replicate hmem]
      rfl
  colon := ⟨[' '], rfl, by simp [Scan.isBlank]⟩

/-- What is written is scanned to tokens, wherever a value may stand. -/
def Writes (text : String) (ts : List Token) : Prop :=
  ∀ before, (text.toList.foldl Scan.step ⟨.between, before⟩).Settles (ts.reverse ++ before)

section

variable {style : Style} {xs : List String} {tss : List (List Token)}

theorem writes_intercalate (hstyle : style.IsBlank) (depth : Nat)
    (h : List.Forall₂ Writes xs tss) (hne : xs ≠ []) :
    Writes (("," ++ style.lineBreak depth).intercalate xs) ([.comma].intercalate tss) := by
  have hcomma {s : Scan} {before : List Token} (hs : s.Settles before) :
      ("," ++ style.lineBreak depth).toList.foldl Scan.step s = ⟨.between, .comma :: before⟩ := by
    rw [String.toList_append]
    exact hs.mark_blanks rfl (hstyle.lineBreak depth)
  unfold Writes
  rw [String.toList_intercalate]
  induction h with
  | nil => exact absurd rfl hne
  | @cons x ts xs tss hx hxs ih =>
      intro before
      cases hxs with
      | nil => simpa [List.intercalate] using hx before
      | cons hy hys =>
          have hrest := ih (by simp) (.comma :: (ts.reverse ++ before))
          rw [List.map_cons, List.map_cons, List.intercalate_cons_cons, List.foldl_append,
            List.foldl_append, hcomma (hx before), List.intercalate_cons_cons]
          simpa using hrest

theorem writes_enclose (hstyle : style.IsBlank) (depth : Nat) {opening closing : Char}
    {first last : Token} (hopening : Scan.mark? opening = some first)
    (hclosing : Scan.mark? closing = some last) (h : List.Forall₂ Writes xs tss) :
    Writes (style.enclose depth (String.singleton opening) (String.singleton closing) xs)
      (first :: [.comma].intercalate tss ++ [last]) := by
  intro before
  have hopen : Scan.step ⟨.between, before⟩ opening = ⟨.between, first :: before⟩ :=
    (Scan.Settles.between before).mark hopening
  unfold Style.enclose
  split
  · next hempty =>
      obtain rfl := List.isEmpty_iff.mp hempty
      cases h
      have hclose : Scan.step ⟨.between, first :: before⟩ closing =
          ⟨.between, last :: first :: before⟩ := (Scan.Settles.between _).mark hclosing
      simpa [hopen, hclose, List.intercalate] using Scan.Settles.between (last :: first :: before)
  · next hne =>
      have hitems := writes_intercalate hstyle (depth + 1) h (by simpa using hne)
        (first :: before)
      have hclose := (hitems.blanks (hstyle.lineBreak depth)).mark hclosing
      simp only [String.toList_append, String.toList_singleton, List.foldl_append,
        List.foldl_cons, List.foldl_nil, hopen, Scan.between_blanks (hstyle.lineBreak _), hclose]
      simpa using Scan.Settles.between _

end

theorem writes_items {style : Style} {items : List Json} {depth : Nat}
    (h : ∀ item ∈ items, Writes (item.render style depth) item.tokens) :
    List.Forall₂ Writes (renderItems style depth items) (tokensOfItems items) := by
  induction items with
  | nil => exact .nil
  | cons item items ih =>
      obtain ⟨hitem, hitems⟩ := List.forall_mem_cons.mp h
      exact .cons hitem (ih hitems)

theorem writes_members {style : Style} (hstyle : style.IsBlank)
    {members : List (String × Json)} {depth : Nat}
    (h : ∀ member ∈ members, Writes (member.2.render style depth) member.2.tokens) :
    List.Forall₂ Writes (renderMembers style depth members) (tokensOfMembers members) := by
  induction members with
  | nil => exact .nil
  | cons member members ih =>
      obtain ⟨name, value⟩ := member
      obtain ⟨hvalue, hmembers⟩ := List.forall_mem_cons.mp h
      refine .cons (fun before => ?_) (ih hmembers)
      obtain ⟨bs, hcolon, hbs⟩ := hstyle.colon
      have hname := (Scan.Settles.between before).string name
      have hmark := (Scan.Settles.between (.string name :: before)).mark_blanks (c := ':') rfl hbs
      rw [String.toList_append, String.toList_append, List.foldl_append, List.foldl_append, hname,
        hcolon, hmark]
      simpa using hvalue (.colon :: .string name :: before)

theorem Storable.writes {j : Json} (h : j.Storable) {style : Style} (hstyle : style.IsBlank)
    (depth : Nat) : Writes (j.render style depth) j.tokens := by
  induction h generalizing depth with
  | null =>
      intro before
      rw [render]
      exact Scan.settles_word rfl (by simp) (by simp [Scan.endsWord, Scan.mark?, Scan.isBlank])
  | bool value =>
      intro before
      rw [render]
      cases value with
      | false =>
          have hword : ∀ c ∈ "false".toList, Scan.endsWord c = false := by
            simp [Scan.endsWord, Scan.mark?, Scan.isBlank]
          exact Scan.settles_word rfl (by simp) hword
      | true =>
          have hword : ∀ c ∈ "true".toList, Scan.endsWord c = false := by
            simp [Scan.endsWord, Scan.mark?, Scan.isBlank]
          exact Scan.settles_word rfl (by simp) hword
  | integer hfits => exact fun _ => settles_number (numberOfWord?_integer hfits)
  | @float x hfinite =>
      cases x with
      | finite negative rank =>
          intro before
          rw [render, floatText, if_pos hfinite, String.toList_ofList]
          exact settles_number (numberOfWord?_float negative rank)
      | infinite => cases hfinite
      | nan => cases hfinite
  | string value =>
      intro before
      rw [render, (Scan.Settles.between before).string value]
      exact .between _
  | array _ ih =>
      have hitems := writes_items fun item hitem => ih item hitem (depth + 1)
      exact @writes_enclose style _ _ hstyle depth '[' ']' _ _ rfl rfl hitems
  | object _ ih =>
      have hmembers := writes_members hstyle fun member hmember => ih member hmember (depth + 1)
      exact @writes_enclose style _ _ hstyle depth '\x7b' '\x7d' _ _ rfl rfl hmembers

/-- **What is written for a value is made of the tokens of the value.** -/
theorem tokens?_render {j : Json} (h : j.Storable) {style : Style} (hstyle : style.IsBlank) :
    tokens? (j.render style 0).toList = some j.tokens := by
  rw [tokens?, Scan.start, (h.writes hstyle 0 []).finish, List.append_nil, List.reverse_reverse]

end Json
end FormLower
