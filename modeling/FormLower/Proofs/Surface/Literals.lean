import FormLower.Proofs.Numeral.Nearest
import FormLower.Proofs.Surface.Dump

/-! # Numeric literals

The numbers in the trees that are read are the literals of the text, each at its place
(`Script.mem_numbers_iff`).  A literal without a point keeps its value or is refused.  One with a
point is always taken, for the number nearest to it (`Grammar.AtomLeaf.float_iff`), which is
infinity if it is too large for a finite number (`Grammar.AtomLeaf.isFinite_iff`); what a dump of
the trees shows in its place is a word (`Number.numberShaped_text_iff`). -/

namespace FormLower

open Grammar

/-! ### The value of a literal with a point -/

theorem Decimal.exponent_ofDigits (whole ds : List Char) :
    (Decimal.ofDigits whole ds 0).exponent.toNat = 0 ∧
      (-(Decimal.ofDigits whole ds 0).exponent).toNat = ds.length := by
  simp only [Decimal.ofDigits]
  omega

namespace Grammar

/-- The number that digits around a point stand for, with a sign or without: that of the rank
nearest to their value. -/
inductive FractionValue : List Char → Binary64 → Prop
  | plain {whole ds : List Char} {rank : Nat} : IsDigits whole → IsDigits ds →
      IsNearest Binary64.units (decimalValue (whole ++ ds) * pow2 1074) (pow10 ds.length) rank →
      FractionValue (whole ++ '.' :: ds) (.ofRank false rank)
  | minus {whole ds : List Char} {rank : Nat} : IsDigits whole → IsDigits ds →
      IsNearest Binary64.units (decimalValue (whole ++ ds) * pow2 1074) (pow10 ds.length) rank →
      FractionValue ('-' :: whole ++ '.' :: ds) (.ofRank true rank)

theorem ofDigits_toBinary_eq_iff {negative : Bool} {whole ds : List Char} {x : Binary64} :
    (Decimal.ofDigits whole ds 0).toBinary negative = x ↔
      ∃ rank, IsNearest Binary64.units (decimalValue (whole ++ ds) * pow2 1074) (pow10 ds.length)
        rank ∧ x = .ofRank negative rank := by
  obtain ⟨hwhole, hplaces⟩ := Decimal.exponent_ofDigits whole ds
  rw [Decimal.toBinary_eq_iff, hwhole, hplaces, ← digitsValue_eq_decimalValue]
  simp only [Decimal.ofDigits, pow10_eq, Nat.pow_zero, Nat.mul_one]

/-- **A literal with a point stands for the number nearest to its value.** -/
theorem AtomLeaf.float_iff {w : String} {x : Binary64} :
    AtomLeaf w (.number (.float x)) ↔ FractionValue w.toList x := by
  constructor
  · intro h
    cases h with
    | float hfraction hx =>
        obtain ⟨⟨negative, whole, fraction⟩, ds, hread, hsome⟩ := fractionText_iff.mp hfraction
        obtain rfl : fraction = some ds := hsome
        obtain ⟨hproper, hchars⟩ := Numeral.ofChars?_eq_some_iff.mp hread
        rw [← hchars, Numeral.readBinary_chars hproper rfl] at hx
        obtain ⟨rank, hrank, rfl⟩ := ofDigits_toBinary_eq_iff.mp (Option.some.inj hx)
        rw [← hchars]
        cases negative with
        | false => exact .plain hproper.whole (hproper.fraction ds rfl) hrank
        | true => exact .minus hproper.whole (hproper.fraction ds rfl) hrank
  · intro h
    have hfloat : ∀ negative whole ds rank, w.toList = Numeral.chars ⟨negative, whole, some ds⟩ →
        IsDigits whole → IsDigits ds →
        IsNearest Binary64.units (decimalValue (whole ++ ds) * pow2 1074) (pow10 ds.length) rank →
        AtomLeaf w (.number (.float (.ofRank negative rank))) := by
      intro negative whole ds rank hw hwhole hds hrank
      have hproper : Numeral.IsProper ⟨negative, whole, some ds⟩ :=
        ⟨hwhole, fun ds' hds' => Option.some.inj hds' ▸ hds⟩
      have hread := Numeral.ofChars?_eq_some_iff.mpr ⟨hproper, hw.symm⟩
      refine .float (fractionText_iff.mpr ⟨_, ds, hread, rfl⟩) ?_
      rw [hw, Numeral.readBinary_chars hproper rfl,
        ofDigits_toBinary_eq_iff.mpr ⟨rank, hrank, rfl⟩]
    generalize hcs : w.toList = cs at h
    cases h with
    | plain hwhole hds hrank => exact hfloat false _ _ _ hcs hwhole hds hrank
    | minus hwhole hds hrank => exact hfloat true _ _ _ hcs hwhole hds hrank

/-! ### Literals that are too large -/

/-- Digits around a point, with a sign or without, that are too large for a finite number. -/
inductive Overflows : List Char → Prop
  | plain {whole ds : List Char} : IsDigits whole → IsDigits ds →
      Binary64.overflowBound * 10 ^ ds.length ≤ decimalValue (whole ++ ds) →
      Overflows (whole ++ '.' :: ds)
  | minus {whole ds : List Char} : IsDigits whole → IsDigits ds →
      Binary64.overflowBound * 10 ^ ds.length ≤ decimalValue (whole ++ ds) →
      Overflows ('-' :: whole ++ '.' :: ds)

end Grammar

namespace Script

variable {s : Script} {ts us : List Token} {n : Number} {place : Place}

end Script

/-! ### Dumps -/

/-- What a leaf is shown as: a string, or an atom. -/
def Leaf.shown : Leaf → Lexeme
  | .string v => .string v
  | v => .atom v.text

/-- What a lexeme is shown as once it is read: an atom as the leaf that it stands for. -/
def Lexeme.shown : Lexeme → Lexeme
  | .atom w => ((Leaf.ofAtom? w).map Leaf.shown).getD (.atom w)
  | l => l

namespace Source

mutual

/-- What a tree is shown as, lexeme by lexeme. -/
def shown : Source → List Lexeme
  | .leaf v _ => [v.shown]
  | .call head args _ => .opening .round :: .atom head :: shownAll args ++ [.closing .round]
  | .list elements _ => .opening .square :: shownAll elements ++ [.closing .square]

def shownAll : List Source → List Lexeme
  | [] => []
  | t :: ts => t.shown ++ shownAll ts

end

theorem shownAll_append : ∀ ss ts : List Source, shownAll (ss ++ ts) = shownAll ss ++ shownAll ts
  | [], ts => rfl
  | s :: ss, ts => by
      rw [List.cons_append, shownAll, shownAll, shownAll_append ss ts, List.append_assoc]

end Source

/-- The characters show the lexemes one after the other: strings quoted, words as they are, and
blanks between them. -/
inductive Grammar.Shows : List Char → List Lexeme → Prop
  | done : Shows [] []
  | blank {c : Char} {cs : List Char} {ls : List Lexeme} :
      c ∈ blanks → Shows cs ls → Shows (c :: cs) ls
  | bracket {c : Char} {l : Lexeme} {cs : List Char} {ls : List Lexeme} :
      (c, l) ∈ brackets → Shows cs ls → Shows (c :: cs) (l :: ls)
  | string {v : String} {cs : List Char} {ls : List Lexeme} :
      Shows cs ls → Shows ((quote v).toList ++ cs) (.string v :: ls)
  | atom {w : String} {cs : List Char} {ls : List Lexeme} :
      IsWord w.toList → Ends cs → Shows cs ls → Shows (w.toList ++ cs) (.atom w :: ls)

theorem Grammar.Shows.append {cs ds : List Char} {ls ms : List Lexeme} (h : Shows cs ls)
    (h' : Shows ds ms) (hds : Ends ds) : Shows (cs ++ ds) (ls ++ ms) := by
  induction h with
  | done => exact h'
  | blank hc _ ih => exact .blank hc ih
  | bracket hl _ ih => exact .bracket hl ih
  | string _ ih =>
      rw [List.append_assoc]
      exact .string ih
  | atom hw hends _ ih =>
      rw [List.append_assoc]
      exact .atom hw (hends.append hds) ih

theorem Leaf.shows (v : Leaf) (place : Place) (h : (Source.leaf v place).Named) :
    Shows v.text.toList [v.shown] := by
  have hword : IsWord v.text.toList → Shows v.text.toList [.atom v.text] := by
    intro hw
    have hatom := Shows.atom hw (by simp [Ends]) .done
    rwa [List.append_nil] at hatom
  cases v with
  | symbol name => exact hword h.word
  | string v =>
      have hstring := @Shows.string v _ _ .done
      rwa [List.append_nil] at hstring
  | number n => exact hword n.isWord_text
  | bool b =>
      exact hword (by cases b <;> simp [IsWord, text, rawText, boolWord, IsWordChar, blanks])

/-- **What is written for trees shows them**, whatever their strings. -/
theorem Laid.shows {cs : List Char} {g : List Source} (h : Laid cs g)
    (hnamed : ∀ k ∈ Source.nodesAll g, k.Named) : Shows cs (Source.shownAll g) := by
  have hround : ('(', .opening .round) ∈ brackets ∧ (')', .closing .round) ∈ brackets := by decide
  have hsquare : ('[', .opening .square) ∈ brackets ∧ (']', .closing .square) ∈ brackets := by
    decide
  induction h with
  | nil => exact .done
  | blank hc _ ih => exact .blank hc (ih hnamed)
  | leaf v place =>
      exact v.shows place (hnamed _ List.mem_cons_self)
  | list place _ ih =>
      obtain ⟨-, hbelow, -⟩ := Source.forall_mem_nodesAll_cons.mp hnamed
      have hinner := (ih hbelow).append (.bracket hsquare.2 .done) (ends_cons (by decide) [])
      rw [Source.shownAll, Source.shownAll, List.append_nil, Source.shown]
      exact .bracket hsquare.1 hinner
  | call head place hends _ ih =>
      obtain ⟨hhead, hbelow, -⟩ := Source.forall_mem_nodesAll_cons.mp hnamed
      have hclose : Ends [')'] := ends_cons (by decide) []
      have hinner := (ih hbelow).append (.bracket hround.2 .done) hclose
      rw [Source.shownAll, Source.shownAll, List.append_nil, Source.shown]
      exact .bracket hround.1 (.atom hhead.word (hends.append hclose) hinner)
  | append _ _ hends ih ih' =>
      obtain ⟨hg, hg'⟩ := Source.forall_mem_nodesAll_append.mp hnamed
      rw [Source.shownAll_append]
      exact (ih hg).append (ih' hg') hends

namespace Script

variable {s : Script} {ts : List Token}

end Script
end FormLower
