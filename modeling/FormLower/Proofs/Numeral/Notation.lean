import FormLower.Proofs.Numeral.Rounding
import FormLower.Proofs.Surface.Atoms

/-! # The texts of numbers

The digits of a finite number are laid out around a point, and zeros are left out or filled in on
the way.  Neither changes the value (`Figures.spells_positional`), so that the text of a number is
an atom that stands for that number (`Number.atomLeaf_text`). -/

namespace FormLower

open Grammar

/-! ### Digits -/

theorem isDigits_digitChars (n : Nat) : IsDigits (digitChars n) :=
  ⟨Nat.toDigits_ne_nil, fun _ hc => Nat.isDigit_of_mem_toDigits (by omega) (by omega) hc⟩

theorem digitsValue_digitChars (n : Nat) : digitsValue (digitChars n) = n := by
  have h := @Nat.ofDigitChars_ten_toDigits n
  rw [Nat.ofDigitChars_eq_foldl] at h
  simp only [Nat.mul_comm 10] at h
  exact h

theorem digitsValue_append_zeros (cs : List Char) (k : Nat) :
    digitsValue (cs ++ List.replicate k '0') = digitsValue cs * 10 ^ k := by
  induction k with
  | zero => simp
  | succ k ih =>
      rw [List.replicate_succ', ← List.append_assoc, digitsValue_append, ih, Nat.pow_succ,
        Nat.mul_assoc]
      rfl

theorem digitsValue_zeros_append (k : Nat) (cs : List Char) :
    digitsValue (List.replicate k '0' ++ cs) = digitsValue cs := by
  induction k with
  | zero => rfl
  | succ k ih => exact ih

theorem isDigit_zeros (k : Nat) : ∀ c ∈ List.replicate k '0', c.isDigit := by
  intro c hc
  rw [List.eq_of_mem_replicate hc]
  rfl

/-! ### Digits around a point -/

/-- A text of digits on both sides of a point that is read as the same number as a decimal. -/
def Decimal.Spells (text : List Char) (d : Decimal) : Prop :=
  ∃ whole ds, text = whole ++ '.' :: ds ∧ IsDigits whole ∧ IsDigits ds ∧
    ∀ negative, (Decimal.ofDigits whole ds 0).toBinary negative = d.toBinary negative

theorem Decimal.Spells.congr {text : List Char} {d d' : Decimal} (h : d.Spells text)
    (heq : ∀ negative, d.toBinary negative = d'.toBinary negative) : d'.Spells text := by
  obtain ⟨whole, ds, htext, hwhole, hds, hvalue⟩ := h
  exact ⟨whole, ds, htext, hwhole, hds, fun negative => (hvalue negative).trans (heq negative)⟩

namespace Figures

/-- The decimal that figures are the digits of. -/
def decimal (f : Figures) : Decimal := ⟨digitsValue f.digits, f.point - f.digits.length⟩

/-- Filling in zeros up to the point, or after it, does not change the number. -/
theorem spells_positional {f : Figures} (hf : IsDigits f.digits) :
    f.decimal.Spells f.positional := by
  unfold positional
  extract_lets places
  split
  · next hpoint =>
      -- Nothing but zeros before the point, and more of them after it.
      refine ⟨['0'], List.replicate (-f.point).toNat '0' ++ f.digits, rfl, by simp [IsDigits], ?_,
        ?_⟩
      · exact ⟨by simp [hf.1], List.forall_mem_append.mpr ⟨isDigit_zeros _, hf.2⟩⟩
      · intro negative
        have hvalue : digitsValue (['0'] ++ (List.replicate (-f.point).toNat '0' ++ f.digits)) =
            digitsValue f.digits := digitsValue_zeros_append ((-f.point).toNat + 1) f.digits
        have hexponent : (0 : Int) - (List.replicate (-f.point).toNat '0' ++ f.digits).length =
            f.point - f.digits.length := by
          simp only [List.length_append, List.length_replicate]
          omega
        rw [Decimal.ofDigits, hvalue, hexponent, decimal]
  · next hpoint =>
      split
      · next hlong =>
          -- All digits before the point, and zeros up to it: the scale makes up for them.
          have hwhole : IsDigits (f.digits ++ List.replicate (places - f.digits.length) '0') :=
            ⟨by simp [hf.1], List.forall_mem_append.mpr ⟨hf.2, isDigit_zeros _⟩⟩
          refine ⟨_, ['0'], rfl, hwhole, by simp [IsDigits], ?_⟩
          intro negative
          have hvalue : digitsValue (f.digits ++ List.replicate (places - f.digits.length) '0' ++
              ['0']) = digitsValue f.digits * 10 ^ (places - f.digits.length + 1) := by
            rw [List.append_assoc, ← List.replicate_succ', digitsValue_append_zeros]
          have hexponent : (0 : Int) - ['0'].length =
              f.point - f.digits.length - (places - f.digits.length + 1 : Nat) := by
            simp only [List.length_singleton]
            omega
          rw [Decimal.ofDigits, hvalue, hexponent, Decimal.toBinary_scale, decimal]
      · next hshort =>
          -- The point stands among the digits.
          have htake : f.digits.take places ≠ [] := by
            rw [ne_eq, List.take_eq_nil_iff]
            rintro (hzero | hnil)
            · omega
            · exact hf.1 hnil
          have hdrop : f.digits.drop places ≠ [] := by
            rw [ne_eq, List.drop_eq_nil_iff]
            exact hshort
          refine ⟨_, _, rfl, ⟨htake, fun c hc => hf.2 c (List.mem_of_mem_take hc)⟩,
            ⟨hdrop, fun c hc => hf.2 c (List.mem_of_mem_drop hc)⟩, ?_⟩
          intro negative
          have hexponent : (0 : Int) - (f.digits.drop places).length =
              f.point - f.digits.length := by
            rw [List.length_drop]
            omega
          rw [Decimal.ofDigits, List.take_append_drop, hexponent, decimal]

end Figures

namespace Decimal

theorem exists_trailing (cs : List Char) :
    ∃ k, cs = (cs.reverse.dropWhile (· = '0')).reverse ++ List.replicate k '0' := by
  refine ⟨(cs.reverse.takeWhile (· = '0')).length, ?_⟩
  have hzeros : cs.reverse.takeWhile (· = '0') =
      List.replicate (cs.reverse.takeWhile (· = '0')).length '0' := by
    refine List.eq_replicate_of_mem fun c hc => ?_
    simpa using List.mem_takeWhile_imp hc
  calc cs = (cs.reverse.takeWhile (· = '0') ++ cs.reverse.dropWhile (· = '0')).reverse := by
        rw [List.takeWhile_append_dropWhile, List.reverse_reverse]
    _ = _ := by rw [List.reverse_append, hzeros, List.reverse_replicate, List.length_replicate]

theorem toBinary_zero (negative : Bool) (e : Int) :
    (Decimal.mk 0 e).toBinary negative = .ofRank negative 0 := by
  rw [toBinary_eq, if_pos (.inl rfl)]

theorem figures_spec (d : Decimal) :
    IsDigits d.figures.digits ∧
      ∀ negative, d.figures.decimal.toBinary negative = d.toBinary negative := by
  unfold figures
  split
  · next hzero =>
      refine ⟨by simp [IsDigits], fun negative => ?_⟩
      have hd : d = ⟨0, d.exponent⟩ := by rw [← hzero]
      rw [hd, toBinary_zero]
      exact toBinary_zero negative _
  · next hne =>
      obtain ⟨k, hk⟩ := exists_trailing (digitChars d.digits)
      extract_lets all
      generalize (all.reverse.dropWhile (· = '0')).reverse = digits at hk
      have hall := isDigits_digitChars d.digits
      have hvalue := digitsValue_digitChars d.digits
      rw [hk, digitsValue_append_zeros] at hvalue
      rw [hk] at hall
      have hdigits : digits ≠ [] := by
        rintro rfl
        exact hne (by simpa [digitsValue] using hvalue.symm)
      refine ⟨⟨hdigits, fun c hc => hall.2 c (List.mem_append_left _ hc)⟩, fun negative => ?_⟩
      have hlength : all.length = digits.length + k := by
        simp [all, hk]
      have hexponent : d.exponent = d.exponent + all.length - digits.length - (k : Nat) := by
        rw [hlength]
        omega
      have hscale := toBinary_scale negative (digitsValue digits) k
        (d.exponent + all.length - digits.length)
      rw [hvalue, ← hexponent] at hscale
      exact hscale.symm

end Decimal

/-! ### Finite numbers -/

namespace Layout

theorem whole_toBinary {rank m : Nat} (h : rank < Binary64.rankLimit)
    (hm : Binary64.units rank = m * pow2 1074) (negative : Bool) :
    (Decimal.mk m 0).toBinary negative = .finite negative ⟨rank, h⟩ := by
  rcases Nat.eq_zero_or_pos m with rfl | hpos
  · rw [Nat.zero_mul, Binary64.units_eq_zero_iff] at hm
    subst hm
    rw [Decimal.toBinary_zero, Binary64.ofRank_of_lt negative h]
  · have hlt : m < pow2 1024 := by
      refine Nat.lt_of_mul_lt_mul_right (a := pow2 1074) ?_
      rw [← hm, ← pow2_add]
      exact Binary64.units_lt h
    have hexponent : (Decimal.mk m 0).exponent = 0 := rfl
    have hhigh := @Decimal.magnitude_le ⟨m, 0⟩ 342 (by omega)
      (Nat.lt_of_lt_of_le hlt (Binary64.pow2_le_ten_pow 342 (by omega)))
    have hlow : 0 ≤ (Decimal.mk m 0).magnitude := by
      rw [Decimal.magnitude, hexponent]
      omega
    rw [hexponent] at hhigh
    rw [Decimal.toBinary_of_bounds negative (Nat.ne_of_gt hpos) (by omega) (by omega)]
    refine Binary64.ofFraction_units negative h (pow10_pos 0) ?_
    rw [hm]
    change m * pow10 0 * pow2 1074 = m * pow2 1074 * pow10 0
    rw [Nat.mul_right_comm]

theorem spells_magnitude {l : Layout} (hl : ∀ e, l.isPositional e = true) {rank : Nat}
    (h : rank < Binary64.rankLimit) :
    ∃ d : Decimal, d.Spells (l.magnitude rank) ∧
      ∀ negative, d.toBinary negative = .finite negative ⟨rank, h⟩ := by
  unfold magnitude
  split
  · next hwhole =>
      have hmod : Binary64.units rank % pow2 1074 = 0 := by
        simpa [isWhole] using (Bool.and_eq_true _ _).mp hwhole |>.2
      have hm := (Nat.div_mul_cancel (Nat.dvd_of_mod_eq_zero hmod)).symm
      generalize Binary64.units rank / pow2 1074 = m at hm ⊢
      refine ⟨⟨m, 0⟩, ⟨digitChars m, ['0'], rfl, isDigits_digitChars m, by simp [IsDigits], ?_⟩,
        whole_toBinary h hm⟩
      intro negative
      have hdigits : digitsValue (digitChars m ++ ['0']) = m * 10 ^ 1 := by
        rw [← List.replicate_one, digitsValue_append_zeros, digitsValue_digitChars]
      rw [Decimal.ofDigits, hdigits]
      exact Decimal.toBinary_scale negative m 1 0
  · extract_lets f
    rw [if_pos (hl _)]
    obtain ⟨hdigits, hvalue⟩ := Decimal.figures_spec
      (if rank = 0 then ⟨0, 0⟩ else Binary64.shortest l.tie rank)
    refine ⟨_, (Figures.spells_positional hdigits).congr hvalue, fun negative => ?_⟩
    split
    · next hzero =>
        subst hzero
        rw [Decimal.toBinary_zero, Binary64.ofRank_of_lt negative h]
    · next hne => exact Decimal.toBinary_sign (Binary64.shortest_toBinary l.tie h hne) negative

end Layout

/-! ### Texts as atoms -/

namespace Number

theorem atomLeaf_int (i : Int64) : AtomLeaf (Number.text (.int i)) (.number (.int i)) := by
  refine .int ?_
  have hvalue : ∀ n, decimalValue (digitChars n) = n := by
    intro n
    rw [← digitsValue_eq_decimalValue, digitsValue_digitChars]
  have hplain := fun n => IntegerText.plain (isDigits_digitChars n)
  have hminus := fun n => IntegerText.minus (isDigits_digitChars n)
  simp only [hvalue] at hplain hminus
  rw [text, Int.toString_eq_repr, Int.repr_eq_if]
  split
  · next hnonneg =>
      rw [Nat.toList_repr]
      exact Int.toNat_of_nonneg hnonneg ▸ hplain i.toInt.toNat
  · next hneg =>
      have hminus' := hminus (-i.toInt).toNat
      rw [Int.toNat_of_nonneg (by omega), Int.neg_neg] at hminus'
      rw [String.toList_append, Nat.toList_repr]
      exact hminus'

theorem atomLeaf_finite (negative : Bool) (rank : Fin Binary64.rankLimit) :
    AtomLeaf (Number.text (.float (.finite negative rank)))
      (.number (.float (.finite negative rank))) := by
  obtain ⟨d, ⟨whole, ds, htext, hwhole, hds, hvalue⟩, hd⟩ :=
    @Layout.spells_magnitude layout (fun _ => rfl) rank.val rank.isLt
  have hproper : Numeral.IsProper ⟨negative, whole, some ds⟩ := by
    refine ⟨hwhole, fun ds' heq => ?_⟩
    cases heq
    exact hds
  have hchars : (Number.text (.float (.finite negative rank))).toList =
      Numeral.chars ⟨negative, whole, some ds⟩ := by
    rw [text, String.toList_ofList, Layout.text, htext, Numeral.chars, List.append_assoc]
  refine .float ?_ ?_
  · rw [hchars]
    exact fractionText_iff.mpr ⟨_, ds, Numeral.ofChars?_eq_some_iff.mpr ⟨hproper, rfl⟩, rfl⟩
  · rw [hchars, Numeral.readBinary_chars hproper rfl, hvalue, hd]

/-- **The text of a finite number is read as that number**, an integer as an integer and a float as
a float with its sign. -/
theorem atomLeaf_text {n : Number} (h : n.isFinite = true) : AtomLeaf n.text (.number n) := by
  cases n with
  | int i => exact atomLeaf_int i
  | float x =>
      cases x with
      | finite negative rank => exact atomLeaf_finite negative rank
      | infinite negative => cases h
      | nan => cases h

theorem isSymbol_text {n : Number} (h : n.isFinite = false) : IsSymbol n.text := by
  rw [← isSymbol_iff]
  cases n with
  | int i => cases h
  | float x =>
      cases x with
      | finite negative rank => cases h
      | infinite negative => cases negative <;> decide
      | nan => decide

end Number

end FormLower
