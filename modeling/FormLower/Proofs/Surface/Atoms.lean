import FormLower.Proofs.Surface.Grammar
import Mathlib.Data.List.Induction
import Mathlib.Data.List.TakeWhile
import Mathlib.Tactic.Ring

/-! # Atoms

An atom is told from its characters alone.  `Numeral.ofChars?` reads exactly the numerals of the
grammar (`Numeral.ofChars?_eq_some_iff`), the classes of atoms are the ones of the grammar
(`isSymbol_iff`), and an atom stands for a leaf exactly when it is no integer out of range
(`Leaf.ofAtom?_eq_some_iff`, `exists_atomLeaf`). -/

namespace FormLower

open Grammar

/-! ### Digits -/

theorem digitsValue_append (cs : List Char) (c : Char) :
    digitsValue (cs ++ [c]) = digitsValue cs * 10 + (c.toNat - '0'.toNat) := by
  simp [digitsValue]

/-- Reading digits from the highest on is their value in base ten. -/
theorem digitsValue_eq_decimalValue (cs : List Char) : digitsValue cs = decimalValue cs := by
  induction cs using List.reverseRecOn with
  | nil => rfl
  | append_singleton cs c ih =>
      rw [digitsValue_append, ih]
      simp only [decimalValue, List.reverse_append, List.reverse_cons, List.reverse_nil,
        List.nil_append, List.map_cons, List.singleton_append, Nat.ofDigits_cons]
      ring

theorem spanDigits_append {ds rest : List Char} (hds : ∀ c ∈ ds, c.isDigit)
    (hrest : ∀ c, rest.head? = some c → ¬ c.isDigit) : spanDigits (ds ++ rest) = (ds, rest) := by
  have hstop : rest.takeWhile Char.isDigit = [] ∧ rest.dropWhile Char.isDigit = rest := by
    cases rest with
    | nil => exact ⟨rfl, rfl⟩
    | cons c cs =>
        have hc : c.isDigit = false := by simpa using hrest c rfl
        simp [hc]
  simp [spanDigits, List.takeWhile_append_of_pos hds, List.dropWhile_append_of_pos hds, hstop]

theorem spanDigits_self {ds : List Char} (hds : ∀ c ∈ ds, c.isDigit) :
    spanDigits ds = (ds, []) := by
  simpa using @spanDigits_append ds [] hds (by simp)

theorem mem_fst_spanDigits {cs : List Char} : ∀ c ∈ (spanDigits cs).1, c.isDigit := by
  intro c hc
  exact List.mem_takeWhile_imp hc

theorem spanDigits_fst_append_snd (cs : List Char) :
    (spanDigits cs).1 ++ (spanDigits cs).2 = cs := List.takeWhile_append_dropWhile

theorem isDigits_head {ds : List Char} (h : IsDigits ds) :
    ∃ d rest, ds = d :: rest ∧ d.isDigit := by
  obtain ⟨hne, hall⟩ := h
  cases ds with
  | nil => exact absurd rfl hne
  | cons d rest => exact ⟨d, rest, rfl, hall d List.mem_cons_self⟩

/-! ### Numerals -/

namespace Numeral

def chars (n : Numeral) : List Char :=
  (if n.negative then ['-'] else []) ++ n.whole ++
    match n.fraction with
    | none => []
    | some fraction => '.' :: fraction

/-- A numeral that can be written: there are digits wherever digits belong. -/
structure IsProper (n : Numeral) : Prop where
  whole : IsDigits n.whole
  fraction : ∀ ds, n.fraction = some ds → IsDigits ds

/-- The numeral of a sign and the characters after it. -/
def ofBody? (negative : Bool) (body : List Char) : Option Numeral :=
  match spanDigits body with
  | ([], _) => none
  | (whole, []) => some ⟨negative, whole, none⟩
  | (whole, '.' :: fraction) =>
    if fraction ≠ [] ∧ fraction.all Char.isDigit then some ⟨negative, whole, some fraction⟩
    else none
  | _ => none

theorem ofChars?_minus (cs : List Char) : ofChars? ('-' :: cs) = ofBody? true cs := rfl

theorem ofChars?_plain {cs : List Char} (h : cs.head? ≠ some '-') :
    ofChars? cs = ofBody? false cs := by
  unfold ofChars?
  split
  next heq =>
    split at heq
    · simp at h
    · cases heq
      rfl

theorem ofBody?_eq_some {negative : Bool} {body : List Char} {n : Numeral}
    (h : ofBody? negative body = some n) :
    n.IsProper ∧ n.negative = negative ∧ n.chars = (if negative then ['-'] else []) ++ body := by
  have hall := @mem_fst_spanDigits body
  have hbody := spanDigits_fst_append_snd body
  unfold ofBody? at h
  generalize spanDigits body = parts at h hall hbody
  split at h
  · simp at h
  · next whole hne =>
      cases h
      refine ⟨⟨⟨by simpa using hne, hall⟩, by simp⟩, rfl, ?_⟩
      simpa [chars] using hbody
  · next whole fraction hne =>
      split at h
      · next hfrac =>
          cases h
          refine ⟨⟨⟨by simpa using hne, hall⟩, ?_⟩, rfl, ?_⟩
          · intro ds hds
            cases hds
            exact ⟨hfrac.1, by simpa using hfrac.2⟩
          · simpa [chars] using hbody
      · simp at h
  · simp at h

theorem ofBody?_of_isProper {n : Numeral} (hn : n.IsProper) :
    ofBody? n.negative (n.whole ++
      match n.fraction with
      | none => []
      | some fraction => '.' :: fraction) = some n := by
  obtain ⟨negative, whole, fraction⟩ := n
  obtain ⟨d, rest, hwhole, -⟩ := isDigits_head hn.whole
  simp only at hwhole
  cases fraction with
  | none =>
      simp only [List.append_nil, ofBody?]
      rw [spanDigits_self hn.whole.2, hwhole]
  | some ds =>
      obtain ⟨hne, hall⟩ := hn.fraction ds rfl
      simp only [ofBody?]
      rw [spanDigits_append hn.whole.2 (by simp), hwhole]
      simp only [ne_eq, hne, not_false_eq_true, List.all_eq_true, true_and]
      rw [if_pos hall]

theorem ofChars?_eq_some_iff {cs : List Char} {n : Numeral} :
    ofChars? cs = some n ↔ n.IsProper ∧ n.chars = cs := by
  constructor
  · intro h
    by_cases hcs : cs.head? = some '-'
    · obtain ⟨rest, rfl⟩ : ∃ rest, cs = '-' :: rest := by
        cases cs with
        | nil => simp at hcs
        | cons c rest => exact ⟨rest, by simpa using hcs⟩
      rw [ofChars?_minus] at h
      obtain ⟨hn, -, hchars⟩ := ofBody?_eq_some h
      exact ⟨hn, by simpa using hchars⟩
    · rw [ofChars?_plain hcs] at h
      obtain ⟨hn, -, hchars⟩ := ofBody?_eq_some h
      exact ⟨hn, by simpa using hchars⟩
  · rintro ⟨hn, rfl⟩
    have hbody := ofBody?_of_isProper hn
    by_cases hneg : n.negative
    · rw [hneg] at hbody
      simpa [chars, hneg, ofChars?_minus] using hbody
    · obtain ⟨d, rest, hwhole, hd⟩ := isDigits_head hn.whole
      have hhead : n.chars.head? ≠ some '-' := by
        simp only [chars, hneg, hwhole]
        rintro h
        cases h
        simp at hd
      rw [ofChars?_plain hhead]
      simpa [chars, hneg] using hbody

/-- The integer of a numeral, its places after the point left out. -/
def integer (n : Numeral) : Int := if n.negative then -digitsValue n.whole else digitsValue n.whole

theorem value?_of_fraction_eq_none {n : Numeral} (h : n.fraction = none) :
    n.value? = Number.ofInt? n.integer := by
  simp [value?, h, integer]

theorem value?_of_fraction_eq_some {n : Numeral} {ds : List Char} (h : n.fraction = some ds) :
    n.value? = some (.float ((Decimal.ofDigits n.whole ds 0).toBinary n.negative)) := by
  simp [value?, h]

theorem readDecimal_point {whole ds : List Char} (hwhole : IsDigits whole) (hds : IsDigits ds) :
    Decimal.read? (whole ++ '.' :: ds) = some (Decimal.ofDigits whole ds 0) := by
  unfold Decimal.read?
  rw [spanDigits_append hwhole.2 (by simp)]
  simp only [spanDigits_self hds.2, hwhole.1, false_and, if_false]
  rfl

/-- A word for an infinite or undefined number does not begin with a digit. -/
theorem readBinary_digits {negative : Bool} {cs body : List Char} {d : Decimal}
    (hsign : spanSign cs = (negative, body)) (hbody : ∃ c rest, body = c :: rest ∧ c.isDigit)
    (hd : Decimal.read? body = some d) :
    Binary64.read? cs = some (d.toBinary negative) := by
  obtain ⟨c, rest, rfl, hc⟩ := hbody
  have hlower : c.toLower = c := by
    simp only [Char.isDigit, Bool.and_eq_true, decide_eq_true_eq] at hc
    have hnot : ¬ (c.val ≥ 'A'.val ∧ c.val ≤ 'Z'.val) := by
      rintro ⟨hA, -⟩
      exact absurd (UInt32.le_trans hA hc.2) (by decide)
    exact dif_neg hnot
  have hword : ∀ k ks, k.isDigit = false →
      String.ofList ((c :: rest).map Char.toLower) ≠ String.ofList (k :: ks) := by
    intro k ks hk heq
    rw [String.ofList_inj] at heq
    simp only [List.map_cons, hlower, List.cons.injEq] at heq
    rw [heq.1, hk] at hc
    exact absurd hc (by decide)
  unfold Binary64.read?
  simp only [hsign]
  rw [if_neg, if_neg, hd]
  · rfl
  · exact hword 'n' ['a', 'n'] rfl
  · rintro (h | h)
    · exact hword 'i' ['n', 'f'] rfl h
    · exact hword 'i' ['n', 'f', 'i', 'n', 'i', 't', 'y'] rfl h

/-- A numeral with a point is read like any floating-point number. -/
theorem readBinary_chars {n : Numeral} {ds : List Char} (hn : n.IsProper)
    (h : n.fraction = some ds) :
    Binary64.read? n.chars = some ((Decimal.ofDigits n.whole ds 0).toBinary n.negative) := by
  obtain ⟨negative, whole, fraction⟩ := n
  obtain rfl : fraction = some ds := h
  obtain ⟨c, rest, rfl, hc⟩ : ∃ c rest, whole = c :: rest ∧ c.isDigit := isDigits_head hn.whole
  have hd := readDecimal_point hn.whole (hn.fraction ds rfl)
  have hsign : spanSign (chars ⟨negative, c :: rest, some ds⟩) =
      (negative, c :: rest ++ '.' :: ds) := by
    cases negative with
    | true => rfl
    | false =>
        have hc' : c ≠ '-' ∧ c ≠ '+' := by
          constructor <;> rintro rfl <;> exact absurd hc (by decide)
        simp [chars, spanSign, hc'.1, hc'.2]
  exact readBinary_digits hsign ⟨c, rest ++ '.' :: ds, rfl, hc⟩ hd

end Numeral

/-! ### The texts of numbers -/

theorem integerText_iff {cs : List Char} {i : Int} :
    IntegerText cs i ↔
      ∃ n, Numeral.ofChars? cs = some n ∧ n.fraction = none ∧ n.integer = i := by
  constructor
  · intro h
    cases h with
    | plain hds =>
        refine ⟨⟨false, cs, none⟩, ?_, rfl, by simp [Numeral.integer, digitsValue_eq_decimalValue]⟩
        exact Numeral.ofChars?_eq_some_iff.mpr ⟨⟨hds, by simp⟩, by simp [Numeral.chars]⟩
    | @minus ds hds =>
        refine ⟨⟨true, ds, none⟩, ?_, rfl, by simp [Numeral.integer, digitsValue_eq_decimalValue]⟩
        exact Numeral.ofChars?_eq_some_iff.mpr ⟨⟨hds, by simp⟩, by simp [Numeral.chars]⟩
  · rintro ⟨⟨negative, whole, fraction⟩, hread, hnone, rfl⟩
    obtain ⟨hn, rfl⟩ := Numeral.ofChars?_eq_some_iff.mp hread
    obtain rfl : fraction = none := hnone
    cases negative with
    | false =>
        simpa [Numeral.chars, Numeral.integer, digitsValue_eq_decimalValue] using
          IntegerText.plain hn.whole
    | true =>
        simpa [Numeral.chars, Numeral.integer, digitsValue_eq_decimalValue] using
          IntegerText.minus hn.whole

theorem fractionText_iff {cs : List Char} :
    FractionText cs ↔ ∃ n ds, Numeral.ofChars? cs = some n ∧ n.fraction = some ds := by
  constructor
  · rintro ⟨hwhole, hds⟩
    rename_i whole ds i
    obtain ⟨n, hread, hnone, -⟩ := integerText_iff.mp hwhole
    obtain ⟨hn, rfl⟩ := Numeral.ofChars?_eq_some_iff.mp hread
    refine ⟨{ n with fraction := some ds }, ds, ?_, rfl⟩
    refine Numeral.ofChars?_eq_some_iff.mpr ⟨⟨hn.whole, ?_⟩, by simp [Numeral.chars, hnone]⟩
    rintro ds' h
    cases h
    exact hds
  · rintro ⟨n, ds, hread, hsome⟩
    obtain ⟨hn, rfl⟩ := Numeral.ofChars?_eq_some_iff.mp hread
    have hwhole : IntegerText ((if n.negative then ['-'] else []) ++ n.whole) n.integer := by
      refine integerText_iff.mpr ⟨{ n with fraction := none }, ?_, rfl, rfl⟩
      exact Numeral.ofChars?_eq_some_iff.mpr ⟨⟨hn.whole, by simp⟩, by simp [Numeral.chars]⟩
    simpa [Numeral.chars, hsome] using FractionText.mk hwhole (hn.fraction ds hsome)

theorem numberShaped_iff {cs : List Char} :
    NumberShaped cs ↔ ∃ n, Numeral.ofChars? cs = some n := by
  constructor
  · rintro (⟨i, h⟩ | h)
    · obtain ⟨n, hread, -⟩ := integerText_iff.mp h
      exact ⟨n, hread⟩
    · obtain ⟨n, ds, hread, -⟩ := fractionText_iff.mp h
      exact ⟨n, hread⟩
  · rintro ⟨n, hread⟩
    cases hfrac : n.fraction with
    | none => exact .inl ⟨n.integer, integerText_iff.mpr ⟨n, hread, hfrac, rfl⟩⟩
    | some ds => exact .inr (fractionText_iff.mpr ⟨n, ds, hread, hfrac⟩)

/-! ### What atoms stand for -/

theorem atomClass_eq (w : String) :
    AtomClass.of w = if w = "true" then .bool true else if w = "false" then .bool false else
      match Numeral.ofChars? w.toList with
      | some n => .numeral n
      | none => .symbol := rfl

/-- The words for the truth values are not shaped like numbers. -/
theorem ne_boolWord_of_numeral {w : String} {n : Numeral}
    (h : Numeral.ofChars? w.toList = some n) : w ≠ "true" ∧ w ≠ "false" := by
  have htrue : Numeral.ofChars? "true".toList = none := by decide
  have hfalse : Numeral.ofChars? "false".toList = none := by decide
  constructor
  · rintro rfl
    rw [htrue] at h
    cases h
  · rintro rfl
    rw [hfalse] at h
    cases h

theorem atomClass_eq_numeral_iff {w : String} {n : Numeral} :
    AtomClass.of w = .numeral n ↔ Numeral.ofChars? w.toList = some n := by
  rw [atomClass_eq]
  constructor
  · intro h
    split_ifs at h
    cases hn : Numeral.ofChars? w.toList with
    | none => simp [hn] at h
    | some m => simpa [hn] using h
  · intro h
    obtain ⟨ht, hf⟩ := ne_boolWord_of_numeral h
    rw [if_neg ht, if_neg hf, h]

theorem atomClass_eq_symbol_iff {w : String} : AtomClass.of w = .symbol ↔ IsSymbol w := by
  rw [atomClass_eq]
  constructor
  · intro h
    split_ifs at h with ht hf
    refine ⟨ht, hf, ?_⟩
    rw [numberShaped_iff]
    rintro ⟨n, hn⟩
    simp [hn] at h
  · rintro ⟨ht, hf, hnum⟩
    have hnone : Numeral.ofChars? w.toList = none := by
      rw [Option.eq_none_iff_forall_ne_some]
      intro n hn
      exact hnum (numberShaped_iff.mpr ⟨n, hn⟩)
    rw [if_neg ht, if_neg hf, hnone]

theorem isSymbol_iff {w : String} : isSymbol w = true ↔ IsSymbol w := by
  rw [isSymbol, decide_eq_true_iff, atomClass_eq_symbol_iff]

theorem ofInt?_eq_some_iff {i : Int} {v : Number} :
    Number.ofInt? i = some v ↔ ∃ k : Int64, v = .int k ∧ k.toInt = i := by
  unfold Number.ofInt?
  constructor
  · intro h
    split_ifs at h with hi
    cases h
    exact ⟨.ofInt i, rfl, Int64.toInt_ofInt_of_le hi.1 hi.2⟩
  · rintro ⟨k, rfl, rfl⟩
    rw [if_pos ⟨Int64.le_toInt k, Int64.toInt_lt k⟩, Int64.ofInt_toInt]

/-- An atom stands for the leaf that the grammar gives it, and for no other one. -/
theorem ofAtom?_eq_some_iff {w : String} {v : Leaf} : Leaf.ofAtom? w = some v ↔ AtomLeaf w v := by
  constructor
  · intro h
    unfold Leaf.ofAtom? at h
    cases hc : AtomClass.of w with
    | bool b =>
        simp only [hc, Option.some.injEq] at h
        subst h
        rw [atomClass_eq] at hc
        split_ifs at hc with ht hf
        · cases hc
          exact ht ▸ .yes
        · cases hc
          exact hf ▸ .no
        · split at hc <;> cases hc
    | numeral n =>
        simp only [hc, Option.map_eq_some_iff] at h
        obtain ⟨k, hk, rfl⟩ := h
        have hn := atomClass_eq_numeral_iff.mp hc
        cases hfrac : n.fraction with
        | none =>
            rw [Numeral.value?_of_fraction_eq_none hfrac, ofInt?_eq_some_iff] at hk
            obtain ⟨i, rfl, hi⟩ := hk
            exact .int (integerText_iff.mpr ⟨n, hn, hfrac, hi.symm⟩)
        | some ds =>
            obtain ⟨hproper, hchars⟩ := Numeral.ofChars?_eq_some_iff.mp hn
            rw [Numeral.value?_of_fraction_eq_some hfrac] at hk
            cases hk
            refine .float (fractionText_iff.mpr ⟨n, ds, hn, hfrac⟩) ?_
            rw [← hchars, Numeral.readBinary_chars hproper hfrac]
    | symbol =>
        simp only [hc, Option.some.injEq] at h
        subst h
        exact .symbol (atomClass_eq_symbol_iff.mp hc)
  · intro h
    unfold Leaf.ofAtom?
    cases h with
    | yes => rfl
    | no => rfl
    | int hi =>
        obtain ⟨n, hn, hfrac, hv⟩ := integerText_iff.mp hi
        simp only [atomClass_eq_numeral_iff.mpr hn]
        rw [Numeral.value?_of_fraction_eq_none hfrac, ofInt?_eq_some_iff.mpr ⟨_, rfl, hv.symm⟩]
        rfl
    | float hfloat hx =>
        obtain ⟨n, ds, hn, hfrac⟩ := fractionText_iff.mp hfloat
        obtain ⟨hproper, hchars⟩ := Numeral.ofChars?_eq_some_iff.mp hn
        rw [← hchars, Numeral.readBinary_chars hproper hfrac] at hx
        cases hx
        simp only [atomClass_eq_numeral_iff.mpr hn, Numeral.value?_of_fraction_eq_some hfrac]
        rfl
    | symbol hs => simp [atomClass_eq_symbol_iff.mpr hs]

theorem ofAtom?_eq_none_iff {w : String} :
    Leaf.ofAtom? w = none ↔ ∃ i, IntegerText w.toList i ∧ ¬ (-2 ^ 63 ≤ i ∧ i < 2 ^ 63) := by
  constructor
  · intro h
    unfold Leaf.ofAtom? at h
    cases hc : AtomClass.of w with
    | bool b => simp [hc] at h
    | numeral n =>
        simp only [hc, Option.map_eq_none_iff] at h
        have hn := atomClass_eq_numeral_iff.mp hc
        cases hfrac : n.fraction with
        | none =>
            rw [Numeral.value?_of_fraction_eq_none hfrac] at h
            refine ⟨n.integer, integerText_iff.mpr ⟨n, hn, hfrac, rfl⟩, ?_⟩
            rintro ⟨hlow, hhigh⟩
            have hk := ofInt?_eq_some_iff.mpr ⟨_, rfl, Int64.toInt_ofInt_of_le hlow hhigh⟩
            rw [hk] at h
            cases h
        | some ds =>
            rw [Numeral.value?_of_fraction_eq_some hfrac] at h
            cases h
    | symbol => simp [hc] at h
  · rintro ⟨i, hi, hrange⟩
    rw [Option.eq_none_iff_forall_ne_some]
    intro v hv
    obtain ⟨n, hn, hfrac, rfl⟩ := integerText_iff.mp hi
    simp only [Leaf.ofAtom?, atomClass_eq_numeral_iff.mpr hn, Option.map_eq_some_iff] at hv
    obtain ⟨k, hk, -⟩ := hv
    rw [Numeral.value?_of_fraction_eq_none hfrac, ofInt?_eq_some_iff] at hk
    obtain ⟨j, -, hj⟩ := hk
    rw [← hj] at hrange
    exact hrange ⟨Int64.le_toInt j, Int64.toInt_lt j⟩

theorem exists_atomLeaf {w : String}
    (h : ∀ i, IntegerText w.toList i → -2 ^ 63 ≤ i ∧ i < 2 ^ 63) : ∃ v, AtomLeaf w v := by
  cases hv : Leaf.ofAtom? w with
  | none =>
      obtain ⟨i, hi, hrange⟩ := ofAtom?_eq_none_iff.mp hv
      exact absurd (h i hi) hrange
  | some v => exact ⟨v, ofAtom?_eq_some_iff.mp hv⟩

theorem Grammar.AtomLeaf.integer_fits {w : String} {v : Leaf} (h : AtomLeaf w v) {i : Int}
    (hi : IntegerText w.toList i) : -2 ^ 63 ≤ i ∧ i < 2 ^ 63 := by
  by_contra hrange
  have hnone := ofAtom?_eq_none_iff.mpr ⟨i, hi, hrange⟩
  rw [ofAtom?_eq_some_iff.mpr h] at hnone
  cases hnone

end FormLower
