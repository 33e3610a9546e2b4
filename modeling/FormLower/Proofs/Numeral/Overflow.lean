import FormLower.Proofs.Numeral.Rounding

/-! # Overflow

The greatest finite number is `2 ^ 1024 - 2 ^ 971`, and infinity stands in the place of `2 ^ 1024`.
What lies half-way between the two goes to the even rank, which is that of infinity, so that a
fraction is rounded to a finite number exactly when it is below `2 ^ 1024 - 2 ^ 970`
(`Binary64.isFinite_ofFraction_iff`).  The same bound decides for decimals, also for those that are
so long that no fraction is made of them (`Decimal.isFinite_toBinary_iff`). -/

namespace FormLower

/-- The least magnitude that is rounded to infinity. -/
def Binary64.overflowBound : Nat := pow2 1024 - pow2 970

/-! ### Fractions -/

theorem roundHalfEven_bounds (n d : Nat) :
    n / d ≤ roundHalfEven n d ∧ roundHalfEven n d ≤ n / d + 1 := by
  unfold roundHalfEven
  extract_lets low rest
  split_ifs <;> omega

/-- A quotient is rounded to less than an even number as long as it is nearer to the number
before. -/
theorem roundHalfEven_lt_iff {n d m : Nat} (hd : 0 < d) (heven : m % 2 = 0) :
    roundHalfEven n d < m ↔ 2 * n + d < 2 * (m * d) := by
  have hn : d * (n / d) + n % d = n := Nat.div_add_mod n d
  have hrest : n % d < d := Nat.mod_lt n hd
  unfold roundHalfEven
  extract_lets low rest
  change d * low + rest = n at hn
  change rest < d at hrest
  rcases Nat.lt_trichotomy (low + 1) m with hless | hnext | hmore
  · -- More than one below: neither neighbour is the even number.
    have hround : (if 2 * rest < d then low else if d < 2 * rest then low + 1 else low + low % 2)
        ≤ low + 1 := by
      split_ifs <;> omega
    have hmul : (low + 2) * d ≤ m * d := Nat.mul_le_mul_right d hless
    rw [Nat.add_mul, Nat.mul_comm low d] at hmul
    exact iff_of_true (Nat.lt_of_le_of_lt hround hless) (by omega)
  · -- The even number is the upper neighbour, and a half goes to it.
    have hmul : m * d = d * low + d := by
      rw [← hnext, Nat.add_mul, Nat.one_mul, Nat.mul_comm]
    rw [hmul]
    split_ifs <;> omega
  · have hround : low ≤ (if 2 * rest < d then low else if d < 2 * rest then low + 1
        else low + low % 2) := by
      split_ifs <;> omega
    have hmul : m * d ≤ low * d := Nat.mul_le_mul_right d (Nat.le_of_lt_succ hmore)
    rw [Nat.mul_comm low d] at hmul
    exact iff_of_false (Nat.not_lt.mpr (Nat.le_trans (Nat.le_of_lt_succ hmore) hround)) (by omega)

namespace Binary64

/-- The bits of a quotient that are lost leave 53 of it, unless none are lost. -/
theorem lost_bounds (q : Nat) :
    q < pow2 (q.log2 - 52 + 53) ∧ (0 < q.log2 - 52 → pow2 (q.log2 - 52 + 52) ≤ q) := by
  constructor
  · have hlt : q < pow2 (q.log2 + 1) := Nat.lt_log2_self
    exact Nat.lt_of_lt_of_le hlt (pow2_le (by omega))
  · intro hlost
    have hq : q ≠ 0 := by
      rintro rfl
      simp at hlost
    have hle : pow2 q.log2 ≤ q := Nat.log2_self_le hq
    have hlog : q.log2 - 52 + 52 = q.log2 := by omega
    rw [hlog]
    exact hle

theorem kept_bounds (q : Nat) :
    q / pow2 (q.log2 - 52) < pow2 53 ∧
      (0 < q.log2 - 52 → pow2 52 ≤ q / pow2 (q.log2 - 52)) := by
  obtain ⟨hlt, hle⟩ := lost_bounds q
  constructor
  · rw [Nat.div_lt_iff_lt_mul (pow2_pos _), ← pow2_add, Nat.add_comm]
    exact hlt
  · intro hlost
    rw [Nat.le_div_iff_mul_le (pow2_pos _), ← pow2_add, Nat.add_comm]
    exact hle hlost

/-- A fraction of units is rounded to a finite rank exactly when it is below half-way to the
magnitude after the greatest one. -/
theorem nearestRank_lt_iff {units d : Nat} (hd : 0 < d) :
    nearestRank units d < rankLimit ↔ units < (pow2 2098 - pow2 2044) * d := by
  have hrank : nearestRank units d = ((units / d).log2 - 52) * pow2 52 +
      roundHalfEven units (d * pow2 ((units / d).log2 - 52)) := rfl
  have hlimit : rankLimit = 2047 * pow2 52 := rfl
  obtain ⟨hlt, hle⟩ := lost_bounds (units / d)
  obtain ⟨hfull, hset⟩ := kept_bounds (units / d)
  have hround := roundHalfEven_bounds units (d * pow2 ((units / d).log2 - 52))
  rw [← Nat.div_div_eq_div_mul] at hround
  generalize (units / d).log2 - 52 = lost at hrank hlt hle hfull hset hround
  have hhalf : pow2 2044 * d ≤ pow2 2097 * d := Nat.mul_le_mul_right d (pow2_le (by omega))
  have hdouble : pow2 2098 * d = pow2 2097 * d * 2 := by
    rw [pow2_add 2097 1, Nat.mul_right_comm]
    rfl
  have hcarry : pow2 53 = pow2 52 * 2 := pow2_add 52 1
  rw [hrank, hlimit, Nat.sub_mul]
  rcases Nat.lt_trichotomy lost 2045 with hfew | rfl | hmany
  · -- Fewer bits are lost than of the greatest numbers: even rounded up it stays below.
    have hbinade : lost * pow2 52 ≤ 2044 * pow2 52 := Nat.mul_le_mul_right _ (by omega)
    have hunits : units < pow2 2097 * d :=
      (Nat.div_lt_iff_lt_mul hd).mp (Nat.lt_of_lt_of_le hlt (pow2_le (by omega)))
    have hone : 1 < pow2 52 := by decide
    exact iff_of_true (by omega) (by omega)
  · -- In the last binade the significand must not be rounded up to the next power of two.
    have heven : pow2 53 % 2 = 0 := by decide
    have hsignificand := @roundHalfEven_lt_iff units (d * pow2 2045) (pow2 53)
      (Nat.mul_pos hd (pow2_pos 2045)) heven
    have hnext : pow2 53 * (d * pow2 2045) = pow2 2098 * d := by
      rw [Nat.mul_left_comm, ← pow2_add, Nat.mul_comm]
    have hsmall : d * pow2 2045 = pow2 2044 * d * 2 := by
      rw [Nat.mul_comm d, pow2_add 2044 1, Nat.mul_right_comm]
      rfl
    rw [hnext] at hsignificand
    omega
  · -- More bits are lost than a finite number has.
    have hbinade : 2046 * pow2 52 ≤ lost * pow2 52 := Nat.mul_le_mul_right _ hmany
    have hquotient : pow2 (lost + 52) ≤ units / d := hle (by omega)
    have hsignificand : pow2 52 ≤ units / d / pow2 lost := hset (by omega)
    have hunits : pow2 2098 * d ≤ units :=
      (Nat.le_div_iff_mul_le hd).mp (Nat.le_trans (pow2_le (by omega)) hquotient)
    exact iff_of_false (by omega) (by omega)

theorem isFinite_ofRank_iff {negative : Bool} {rank : Nat} :
    (ofRank negative rank).isFinite = true ↔ rank < rankLimit := by
  unfold ofRank
  split
  · next h => exact iff_of_true rfl h
  · next h => exact iff_of_false Bool.false_ne_true h

/-- **The number nearest to a fraction is finite** exactly when the fraction is below the bound. -/
theorem isFinite_ofFraction_iff {negative : Bool} {n d : Nat} (hd : 0 < d) :
    (ofFraction negative n d).isFinite = true ↔ n < overflowBound * d := by
  have hbound : overflowBound * pow2 1074 = pow2 2098 - pow2 2044 := by
    rw [overflowBound, Nat.sub_mul, ← pow2_add, ← pow2_add]
  rw [ofFraction, isFinite_ofRank_iff, nearestRank_lt_iff hd, ← hbound, Nat.mul_right_comm,
    Nat.mul_lt_mul_right (pow2_pos 1074)]

/-- The bound has far less than 400 digits. -/
theorem overflowBound_bounds : 1 ≤ overflowBound ∧ overflowBound ≤ 10 ^ 400 := by
  have hone : pow2 1 = 2 := rfl
  have htwo : pow2 971 = pow2 970 * 2 := by rw [pow2_add 970 1, hone]
  have hlow : pow2 971 ≤ pow2 1024 := pow2_le (by omega)
  have hpos := pow2_pos 970
  have hdigits : pow2 1024 ≤ 10 ^ 400 := pow2_le_ten_pow 400 (by omega)
  unfold overflowBound
  generalize 10 ^ 400 = limit at hdigits ⊢
  omega

end Binary64

/-! ### Decimals -/

namespace Decimal

theorem exponent_lt_magnitude (d : Decimal) : d.exponent < d.magnitude := by
  have hlength : 0 < (digitChars d.digits).length := List.length_pos_iff.mpr Nat.toDigits_ne_nil
  rw [magnitude]
  omega

/-- A decimal is below the power of ten that its magnitude says, and not below the one before. -/
theorem digits_bounds {d : Decimal} (k : Nat) (hd : d.digits ≠ 0) :
    (d.magnitude ≤ d.exponent + k → d.digits < 10 ^ k) ∧
      (d.exponent + k < d.magnitude → 10 ^ k ≤ d.digits) := by
  rcases Nat.eq_zero_or_pos k with rfl | hk
  · have hlt := d.exponent_lt_magnitude
    rw [Nat.pow_zero]
    exact ⟨by omega, fun _ => Nat.pos_of_ne_zero hd⟩
  · constructor
    · intro h
      by_contra hge
      have := lt_magnitude hk (Nat.not_lt.mp hge)
      omega
    · intro h
      by_contra hlt
      have := magnitude_le hk (Nat.not_le.mp hlt)
      omega

/-- **A decimal is read as a finite number** exactly when it is below the bound. -/
theorem isFinite_toBinary_iff (negative : Bool) (d : Decimal) :
    (d.toBinary negative).isFinite = true ↔
      d.digits * 10 ^ d.exponent.toNat < Binary64.overflowBound * 10 ^ (-d.exponent).toNat := by
  obtain ⟨hpos, hlimit⟩ := Binary64.overflowBound_bounds
  have hfinite : (Binary64.ofRank negative 0).isFinite = true :=
    Binary64.isFinite_ofRank_iff.mpr (by decide)
  have hscale : 1 * 10 ^ (-d.exponent).toNat ≤ Binary64.overflowBound * 10 ^ (-d.exponent).toNat :=
    Nat.mul_le_mul_right _ hpos
  rw [Nat.one_mul] at hscale
  have hlt := d.exponent_lt_magnitude
  by_cases hzero : d.digits = 0
  · rw [toBinary_eq, if_pos (.inl hzero), hzero, Nat.zero_mul]
    exact iff_of_true hfinite (Nat.lt_of_lt_of_le (Nat.pow_pos (by omega)) hscale)
  by_cases hsmall : d.magnitude < -400
  · -- So far below one that it has no digits before the point.
    have hwhole : d.exponent.toNat = 0 := by omega
    have hdigits := (digits_bounds (-d.exponent).toNat hzero).1 (by omega)
    rw [toBinary_eq, if_pos (.inr hsmall), hwhole, Nat.pow_zero, Nat.mul_one]
    exact iff_of_true hfinite (Nat.lt_of_lt_of_le hdigits hscale)
  by_cases hlarge : 400 < d.magnitude
  · -- Far too great, whether or not it has places after the point.
    have hinfinite : (Binary64.infinite negative).isFinite = false := rfl
    have hdigits := (digits_bounds (400 - d.exponent).toNat hzero).2 (by omega)
    have hpowers : (-d.exponent).toNat + 400 ≤ (400 - d.exponent).toNat + d.exponent.toNat := by
      omega
    have hge : Binary64.overflowBound * 10 ^ (-d.exponent).toNat ≤
        d.digits * 10 ^ d.exponent.toNat := by
      calc Binary64.overflowBound * 10 ^ (-d.exponent).toNat
          ≤ 10 ^ 400 * 10 ^ (-d.exponent).toNat := Nat.mul_le_mul_right _ hlimit
        _ = 10 ^ ((-d.exponent).toNat + 400) := by rw [Nat.mul_comm, Nat.pow_add]
        _ ≤ 10 ^ ((400 - d.exponent).toNat + d.exponent.toNat) :=
          Nat.pow_le_pow_right (by omega) hpowers
        _ = 10 ^ (400 - d.exponent).toNat * 10 ^ d.exponent.toNat := Nat.pow_add _ _ _
        _ ≤ d.digits * 10 ^ d.exponent.toNat := Nat.mul_le_mul_right _ hdigits
    rw [toBinary_eq, if_neg (by omega), if_pos hlarge, hinfinite]
    exact iff_of_false Bool.false_ne_true (Nat.not_lt.mpr hge)
  · rw [toBinary_of_bounds negative hzero (by omega) (by omega)]
    exact Binary64.isFinite_ofFraction_iff (pow10_pos _)

end Decimal
end FormLower
