import FormLower.Json.Printer
import FormLower.Json.Token
import FormLower.Proofs.Numeral.Notation

/-! # Numbers of the data format

A number is written as a bare word.  The word of an integer that fits 64 bits stands for that
integer, and the word of a finite float for that float, whichever of the two notations the size of
the float asks for (`numberOfWord?_integer`, `numberOfWord?_float`). -/

namespace FormLower
namespace Json

open Grammar

/-! ### Signs -/

/-- The sign in front of a number. -/
def signChars (negative : Bool) : List Char := if negative then ['-'] else []

/-- The number of a sign and the characters after it. -/
def unsigned? (negative : Bool) (body : List Char) : Option Json :=
  let (whole, afterWhole) := spanDigits body
  if isWholePart whole then do
    let (fraction, afterFraction) ← spanFraction afterWhole
    let exponent ← readExponent? afterFraction
    let size : Int := digitsValue whole
    let value := if negative then -size else size
    if afterWhole = [] ∧ FitsInteger value ∧ ¬(negative ∧ value = 0) then
      return .integer value
    else
      let x := (Decimal.ofDigits whole fraction exponent).toBinary negative
      if x.isFinite then return .float x else none
  else none

theorem numberOfWord?_minus (cs : List Char) : numberOfWord? ('-' :: cs) = unsigned? true cs := rfl

theorem numberOfWord?_plain {cs : List Char} (h : cs.head? ≠ some '-') :
    numberOfWord? cs = unsigned? false cs := by
  unfold numberOfWord?
  split
  next heq =>
    split at heq
    · simp at h
    · cases heq
      rfl

theorem numberOfWord?_signChars (negative : Bool) {whole : List Char} (hwhole : IsDigits whole)
    (after : List Char) :
    numberOfWord? (signChars negative ++ (whole ++ after)) =
      unsigned? negative (whole ++ after) := by
  cases negative with
  | true => exact numberOfWord?_minus _
  | false =>
      obtain ⟨c, rest, rfl, hc⟩ := isDigits_head hwhole
      refine numberOfWord?_plain ?_
      rintro h
      cases h
      simp at hc

/-! ### Integers -/

/-- Digits without a zero in front stand for an integer that fits. -/
theorem unsigned?_digits {negative : Bool} {whole : List Char} (hwhole : IsDigits whole)
    (hpart : isWholePart whole = true) {value : Int}
    (hvalue : value = if negative then -(digitsValue whole : Int) else digitsValue whole)
    (hfits : FitsInteger value) (hzero : ¬(negative ∧ value = 0)) :
    unsigned? negative whole = some (.integer value) := by
  unfold unsigned?
  rw [spanDigits_self hwhole.2]
  simp only [hpart, if_true, ← hvalue]
  simp [spanFraction, readExponent?, hfits, hzero]

/-- The digits of a number begin with a zero only if there is no other digit. -/
theorem digitChars_head {n : Nat} (hn : 0 < n) : (digitChars n).head? ≠ some '0' := by
  induction n using Nat.strongRecOn with
  | ind n ih =>
      rw [digitChars, Nat.toDigits_eq_if (by omega)]
      split
      · next hlt =>
          have hne : n.digitChar ≠ '0' := fun h => absurd (Nat.digitChar_eq_zero.mp h) (by omega)
          simpa using hne
      · next hle =>
          have hdiv : 0 < n / 10 := Nat.div_pos (by omega) (by omega)
          obtain ⟨d, rest, hdigits, -⟩ := isDigits_head (isDigits_digitChars (n / 10))
          have hfirst := ih (n / 10) (Nat.div_lt_self hn (by omega)) hdiv
          rw [digitChars] at hdigits hfirst
          rw [hdigits] at hfirst ⊢
          exact hfirst

theorem isWholePart_of_head {ds : List Char} (hds : IsDigits ds) (h : ds.head? ≠ some '0') :
    isWholePart ds = true := by
  obtain ⟨d, rest, rfl, -⟩ := isDigits_head hds
  have hd : d ≠ '0' := by simpa using h
  unfold isWholePart
  split
  · contradiction
  · next heq =>
      cases heq
      exact absurd rfl hd
  · rfl

theorem isWholePart_digitChars (n : Nat) : isWholePart (digitChars n) = true := by
  rcases Nat.eq_zero_or_pos n with rfl | hn
  · rfl
  · exact isWholePart_of_head (isDigits_digitChars n) (digitChars_head hn)

/-- **The word of an integer that fits stands for that integer.** -/
theorem numberOfWord?_integer {i : Int} (h : FitsInteger i) :
    numberOfWord? (toString i).toList = some (.integer i) := by
  rw [Int.toString_eq_repr, Int.repr_eq_if]
  split
  · next hnonneg =>
      rw [Nat.toList_repr, ← List.append_nil (Nat.toDigits _ _)]
      refine (numberOfWord?_signChars false (isDigits_digitChars _) []).trans ?_
      rw [List.append_nil]
      refine unsigned?_digits (isDigits_digitChars _) (isWholePart_digitChars _) ?_ h (by simp)
      rw [digitsValue_digitChars]
      exact (Int.toNat_of_nonneg hnonneg).symm
  · next hneg =>
      rw [String.toList_append, Nat.toList_repr, ← List.append_nil (Nat.toDigits _ _)]
      refine (numberOfWord?_signChars true (isDigits_digitChars _) []).trans ?_
      rw [List.append_nil]
      refine unsigned?_digits (isDigits_digitChars _) (isWholePart_digitChars _) ?_ h (by omega)
      rw [digitsValue_digitChars]
      simp only [if_true]
      omega

/-! ### Floats -/

/-- An unsigned number with a fraction or an exponent, which is read as the same float as a
decimal. -/
inductive FloatText (d : Decimal) : List Char → Prop
  | mk {whole after fraction tail : List Char} {exponent : Int} :
      IsDigits whole → isWholePart whole = true → after ≠ [] →
      (∀ c, after.head? = some c → ¬ c.isDigit) →
      spanFraction after = some (fraction, tail) → readExponent? tail = some exponent →
      (∀ negative, (Decimal.ofDigits whole fraction exponent).toBinary negative =
        d.toBinary negative) →
      FloatText d (whole ++ after)

theorem FloatText.congr {d d' : Decimal} {text : List Char} (h : FloatText d text)
    (heq : ∀ negative, d.toBinary negative = d'.toBinary negative) : FloatText d' text := by
  cases h with
  | mk hwhole hpart hne hstop hfraction hexponent hvalue =>
      exact .mk hwhole hpart hne hstop hfraction hexponent fun negative =>
        (hvalue negative).trans (heq negative)

/-- An unsigned number and a sign stand for a float, if it is finite. -/
theorem FloatText.numberOfWord? {d : Decimal} {text : List Char} (h : FloatText d text)
    {negative : Bool} (hfinite : (d.toBinary negative).isFinite) :
    numberOfWord? (signChars negative ++ text) = some (.float (d.toBinary negative)) := by
  cases h with
  | @mk whole after fraction tail exponent hwhole hpart hne hstop hfraction hexponent hvalue =>
      rw [numberOfWord?_signChars negative hwhole, unsigned?, spanDigits_append hwhole.2 hstop]
      simp [hpart, hfraction, hexponent, hne, hvalue, hfinite]

theorem isWholePart_positional {f : Figures} (hf : IsDigits f.digits)
    (hfirst : f.digits.head? = some '0' → f.digits = ['0'] ∧ f.point = 1) :
    isWholePart (spanDigits f.positional).1 = true := by
  obtain ⟨d, ds, hdigits, -⟩ := isDigits_head hf
  have hnonzero (hlong : ¬(f.digits = ['0'] ∧ f.point = 1)) : d ≠ '0' := by
    rintro rfl
    exact hlong (hfirst (by rw [hdigits]; rfl))
  unfold Figures.positional
  extract_lets places
  split
  · rfl
  · next hpoint =>
      split
      · next hlong =>
          -- The zeros that are filled in stand behind the digits.
          have hwhole : IsDigits (f.digits ++ List.replicate (places - f.digits.length) '0') :=
            ⟨by simp [hf.1], List.forall_mem_append.mpr ⟨hf.2, isDigit_zeros _⟩⟩
          rw [spanDigits_append hwhole.2 (by simp)]
          by_cases hzero : f.digits = ['0'] ∧ f.point = 1
          · simp [places, hzero.1, hzero.2, isWholePart]
          · refine isWholePart_of_head hwhole ?_
            simpa [hdigits] using hnonzero hzero
      · next hshort =>
          have hwhole : IsDigits (f.digits.take places) := by
            refine ⟨?_, fun c hc => hf.2 c (List.mem_of_mem_take hc)⟩
            rw [ne_eq, List.take_eq_nil_iff]
            rintro (hplaces | hnil)
            · omega
            · exact hf.1 hnil
          rw [spanDigits_append hwhole.2 (by simp)]
          refine isWholePart_of_head hwhole ?_
          obtain ⟨n, hn⟩ : ∃ n, places = n + 1 := ⟨places - 1, by omega⟩
          have hlong : ¬(f.digits = ['0'] ∧ f.point = 1) := by
            rintro ⟨hsingle, -⟩
            rw [hsingle, List.length_singleton] at hshort
            omega
          simpa [hdigits, hn] using hnonzero hlong

theorem floatText_positional {f : Figures} (hf : IsDigits f.digits)
    (hfirst : f.digits.head? = some '0' → f.digits = ['0'] ∧ f.point = 1) :
    FloatText f.decimal f.positional := by
  obtain ⟨whole, ds, htext, hwhole, hds, hvalue⟩ := Figures.spells_positional hf
  have hspan : (spanDigits f.positional).1 = whole := by
    rw [htext, spanDigits_append hwhole.2 (by simp)]
  have hpart : isWholePart whole = true := by
    rw [← hspan]
    exact isWholePart_positional hf hfirst
  have hfraction : spanFraction ('.' :: ds) = some (ds, []) := by
    obtain ⟨d, rest, rfl, -⟩ := isDigits_head hds
    simp [spanFraction, spanDigits_self hds.2]
  rw [htext]
  exact .mk hwhole hpart (by simp) (by simp) hfraction rfl hvalue

theorem readExponent?_digits (negative : Bool) (n : Nat) :
    readExponent? ('e' :: (if negative then '-' else '+') :: digitChars n) =
      some (if negative then -(n : Int) else n) := by
  have hdigits := isDigits_digitChars n
  cases negative <;>
    simp [readExponent?, readInt?, spanSign, hdigits.1, digitsValue_digitChars,
      List.all_eq_true.mpr hdigits.2]

/-- A fraction, with its point if there are digits, ends where the exponent begins. -/
theorem spanFraction_exponent {ds : List Char} (hds : ∀ c ∈ ds, c.isDigit) (rest : List Char) :
    spanFraction ((if ds = [] then [] else '.' :: ds) ++ 'e' :: rest) =
      some (ds, 'e' :: rest) := by
  cases ds with
  | nil => rfl
  | cons d ds =>
      have hspan : spanDigits (d :: (ds ++ 'e' :: rest)) = (d :: ds, 'e' :: rest) :=
        spanDigits_append hds (by simp)
      simp [spanFraction, hspan]

theorem floatText_scientific {f : Figures} (hf : IsDigits f.digits) :
    FloatText f.decimal f.scientific := by
  obtain ⟨d, ds, hdigits, hd⟩ := isDigits_head hf
  have hds : ∀ c ∈ ds, c.isDigit := fun c hc => hf.2 c (by simp [hdigits, hc])
  have hexponent := readExponent?_digits (decide (f.exponent < 0)) f.exponent.natAbs
  have hvalue : (if f.exponent < 0 then -(f.exponent.natAbs : Int) else f.exponent.natAbs) =
      f.exponent := by
    split <;> omega
  simp only [decide_eq_true_eq, hvalue] at hexponent
  have hdecimal : Decimal.ofDigits [d] ds f.exponent = f.decimal := by
    simp only [Decimal.ofDigits, Figures.decimal, Figures.exponent, hdigits, List.singleton_append,
      List.length_cons, Decimal.mk.injEq, true_and]
    omega
  have htext : f.scientific = [d] ++ ((if ds = [] then [] else '.' :: ds) ++
      'e' :: (if f.exponent < 0 then '-' else '+') :: digitChars f.exponent.natAbs) := by
    simp [Figures.scientific, hdigits]
  have hwhole : IsDigits [d] := ⟨by simp, by simpa using hd⟩
  have hpart : isWholePart [d] = true := by
    unfold isWholePart
    split <;> simp_all
  rw [htext]
  refine .mk hwhole hpart (by simp) ?_ (spanFraction_exponent hds _) hexponent fun negative => ?_
  · intro c hc
    split at hc <;> cases hc <;> decide
  · rw [hdecimal]

/-- The figures of a number begin with a zero only if it is zero. -/
theorem figures_first (d : Decimal) (h : d.figures.digits.head? = some '0') :
    d.figures.digits = ['0'] ∧ d.figures.point = 1 := by
  have hdigits := (Decimal.figures_spec d).1
  unfold Decimal.figures at h hdigits ⊢
  split at h
  · next hzero => simp [hzero]
  · next hne =>
      -- Zeros are taken away only behind the digits.
      obtain ⟨k, hk⟩ := Decimal.exists_trailing (digitChars d.digits)
      rw [if_neg hne] at hdigits
      obtain ⟨c, rest, hstripped, -⟩ := isDigits_head hdigits
      simp only at h hstripped
      rw [hstripped] at h hk
      have hfirst := digitChars_head (Nat.pos_of_ne_zero hne)
      rw [hk] at hfirst
      exact absurd h hfirst

/-- **The word of a finite float stands for that float.** -/
theorem numberOfWord?_float (negative : Bool) (rank : Fin Binary64.rankLimit) :
    numberOfWord? (layout.text (.finite negative rank)) =
      some (.float (.finite negative rank)) := by
  generalize hd : (if rank.val = 0 then ⟨0, 0⟩ else Binary64.shortest .even rank.val : Decimal) = d
  have hvalue : ∀ negative, d.toBinary negative = .finite negative rank := by
    intro negative
    rw [← hd]
    split
    · next hzero =>
        rw [Decimal.toBinary_zero, Binary64.ofRank_of_lt negative (hzero ▸ rank.isLt)]
        exact congrArg _ (Fin.ext hzero.symm)
    · next hne =>
        exact Decimal.toBinary_sign (Binary64.shortest_toBinary .even rank.isLt hne) negative
  obtain ⟨hdigits, hfigures⟩ := Decimal.figures_spec d
  have htext : FloatText d (layout.magnitude rank.val) := by
    have hmagnitude : layout.magnitude rank.val =
        if layout.isPositional d.figures.exponent then d.figures.positional
        else d.figures.scientific := by
      rw [← hd]
      rfl
    rw [hmagnitude]
    split
    · exact (floatText_positional hdigits (figures_first d)).congr hfigures
    · exact (floatText_scientific hdigits).congr hfigures
  have hfinite : (d.toBinary negative).isFinite := by
    rw [hvalue]
    rfl
  have hword := htext.numberOfWord? hfinite
  rwa [hvalue] at hword

/-! ### Characters -/

/-- The characters that numbers are written with. -/
def IsNumberChar (c : Char) : Prop := c.isDigit ∨ c ∈ ['-', '+', '.', 'e', 'E']

theorem isNumberChar_of_digits {ds : List Char} (h : ∀ c ∈ ds, c.isDigit) :
    ∀ c ∈ ds, IsNumberChar c := fun c hc => .inl (h c hc)

theorem isNumberChar_of_readInt? {cs : List Char} {i : Int} (h : readInt? cs = some i) :
    ∀ c ∈ cs, IsNumberChar c := by
  have hsign : ∀ c ∈ cs, IsNumberChar c ∨ c ∈ (spanSign cs).2 := by
    unfold spanSign
    split
    · exact List.forall_mem_cons.mpr ⟨.inl (.inr (by decide)), fun c hc => .inr hc⟩
    · exact List.forall_mem_cons.mpr ⟨.inl (.inr (by decide)), fun c hc => .inr hc⟩
    · exact fun c hc => .inr hc
  unfold readInt? at h
  split at h
  next negative body heq =>
    rw [heq] at hsign
    split at h
    · next hbody =>
        intro c hc
        exact (hsign c hc).elim id fun hc => .inl (List.all_eq_true.mp hbody.2 c hc)
    · cases h

theorem isNumberChar_of_readExponent? {cs : List Char} {i : Int} (h : readExponent? cs = some i) :
    ∀ c ∈ cs, IsNumberChar c := by
  cases cs with
  | nil => simp
  | cons c cs =>
      rw [readExponent?] at h
      split at h
      · next hc =>
          refine List.forall_mem_cons.mpr ⟨.inr ?_, isNumberChar_of_readInt? h⟩
          rcases hc with rfl | rfl <;> decide
      · cases h

theorem isNumberChar_of_spanDigits {cs : List Char}
    (hrest : ∀ c ∈ (spanDigits cs).2, IsNumberChar c) : ∀ c ∈ cs, IsNumberChar c := by
  rw [← spanDigits_fst_append_snd cs]
  exact List.forall_mem_append.mpr ⟨isNumberChar_of_digits mem_fst_spanDigits, hrest⟩

theorem isNumberChar_of_spanFraction {cs fraction rest : List Char}
    (h : spanFraction cs = some (fraction, rest)) (hrest : ∀ c ∈ rest, IsNumberChar c) :
    ∀ c ∈ cs, IsNumberChar c := by
  unfold spanFraction at h
  split at h
  · next digits =>
      split at h
      · cases h
      · next hne =>
          refine List.forall_mem_cons.mpr ⟨.inr (by decide), isNumberChar_of_spanDigits ?_⟩
          rwa [Option.some.inj h]
  · cases h
    exact hrest

theorem isNumberChar_of_word {word : List Char} {j : Json} (h : numberOfWord? word = some j) :
    ∀ c ∈ word, IsNumberChar c := by
  have hbody : ∀ negative body, unsigned? negative body = some j →
      ∀ c ∈ body, IsNumberChar c := by
    intro negative body h
    refine isNumberChar_of_spanDigits ?_
    unfold unsigned? at h
    split at h
    next whole after hspan =>
      rw [hspan]
      split at h
      · obtain ⟨⟨fraction, tail⟩, hfraction, h⟩ := Option.bind_eq_some_iff.mp h
        obtain ⟨exponent, hexponent, -⟩ := Option.bind_eq_some_iff.mp h
        exact isNumberChar_of_spanFraction hfraction (isNumberChar_of_readExponent? hexponent)
      · cases h
  by_cases hminus : word.head? = some '-'
  · obtain ⟨rest, rfl⟩ : ∃ rest, word = '-' :: rest := List.head?_eq_some_iff.mp hminus
    exact List.forall_mem_cons.mpr ⟨.inr (by decide), hbody true rest h⟩
  · rw [numberOfWord?_plain hminus] at h
    exact hbody false word h

end Json
end FormLower
