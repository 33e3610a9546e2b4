import FormLower.Proofs.Numeral.Overflow
import Mathlib.Data.Nat.Dist
import Mathlib.Order.Monotone.Basic

/-! # The nearest number

What rounding is for, apart from how it is done.  `IsNearest grid n d i` says that no member of a
grid is less far from `n / d` than the one numbered `i`, and that another one is as far only if `i`
is even; on a grid that ascends there is one such member (`IsNearest.unique`).  The naturals are
such a grid, and so are the magnitudes of the binary format: the rank that is found for a fraction
is the nearest one (`Binary64.isNearest_nearestRank`), and the number that a decimal is read as has
the rank nearest to the decimal, however long that is (`Decimal.toBinary_eq_iff`). -/

namespace FormLower

/-! ### Grids -/

/-- The member of a grid that is nearest to `n / d`; of two equally near ones that with the even
number. -/
structure IsNearest (grid : Nat → Nat) (n d i : Nat) : Prop where
  least : ∀ j, Nat.dist (grid i * d) n ≤ Nat.dist (grid j * d) n
  even : ∀ j, Nat.dist (grid j * d) n = Nat.dist (grid i * d) n → j = i ∨ i % 2 = 0

theorem dist_lt_of_lt_of_le {a b n : Nat} (hab : a < b) (hb : b ≤ n) :
    Nat.dist b n < Nat.dist a n := by
  unfold Nat.dist
  omega

theorem dist_lt_of_between {a b c n : Nat} (hab : a < b) (hbc : b < c)
    (h : Nat.dist a n = Nat.dist c n) : Nat.dist b n < Nat.dist a n := by
  unfold Nat.dist at *
  omega

/-- Two members that are both nearest would both be even and have one between them, which would be
nearer. -/
theorem IsNearest.not_lt {grid : Nat → Nat} {n d i j : Nat} (hgrid : StrictMono grid) (hd : 0 < d)
    (hi : IsNearest grid n d i) (hj : IsNearest grid n d j) : ¬ i < j := by
  intro hlt
  have hdist := Nat.le_antisymm (hi.least j) (hj.least i)
  have hieven : i % 2 = 0 := (hi.even j hdist.symm).resolve_left (Nat.ne_of_gt hlt)
  have hjeven : j % 2 = 0 := (hj.even i hdist).resolve_left (Nat.ne_of_lt hlt)
  have hbelow : grid i * d < grid (i + 1) * d :=
    Nat.mul_lt_mul_of_pos_right (hgrid (Nat.lt_succ_self i)) hd
  have habove : grid (i + 1) * d < grid j * d :=
    Nat.mul_lt_mul_of_pos_right (hgrid (by omega)) hd
  exact Nat.not_lt.mpr (hi.least (i + 1)) (dist_lt_of_between hbelow habove hdist)

/-- **There is one nearest member.** -/
theorem IsNearest.unique {grid : Nat → Nat} {n d i j : Nat} (hgrid : StrictMono grid) (hd : 0 < d)
    (hi : IsNearest grid n d i) (hj : IsNearest grid n d j) : i = j :=
  Nat.le_antisymm (Nat.not_lt.mp (hj.not_lt hgrid hd hi)) (Nat.not_lt.mp (hi.not_lt hgrid hd hj))

theorem isNearest_roundHalfEven (n : Nat) {d : Nat} (hd : 0 < d) :
    IsNearest id n d (roundHalfEven n d) := by
  have hn : d * (n / d) + n % d = n := Nat.div_add_mod n d
  have hrest : n % d < d := Nat.mod_lt n hd
  have hround : roundHalfEven n d = if 2 * (n % d) < d then n / d
      else if d < 2 * (n % d) then n / d + 1 else n / d + n / d % 2 := rfl
  generalize n / d = low at *
  generalize n % d = rest at *
  -- Where a natural and its multiple of `d` are, seen from the lower neighbour of the quotient.
  have hplace : ∀ m, m < low ∧ m * d + d ≤ d * low ∨ m = low ∧ m * d = d * low ∨
      m = low + 1 ∧ m * d = d * low + d ∨ low + 1 < m ∧ d * low + 2 * d ≤ m * d := by
    intro m
    rcases Nat.lt_trichotomy m low with h | rfl | h
    · have := Nat.mul_le_mul_right d (Nat.succ_le_of_lt h)
      rw [Nat.succ_mul, Nat.mul_comm low d] at this
      omega
    · exact .inr (.inl ⟨rfl, Nat.mul_comm _ _⟩)
    · rcases Nat.eq_or_lt_of_le (Nat.succ_le_of_lt h) with rfl | h
      · exact .inr (.inr (.inl ⟨rfl, by rw [Nat.succ_mul, Nat.mul_comm]⟩))
      · have := Nat.mul_le_mul_right d (Nat.succ_le_of_lt h)
        rw [Nat.succ_mul, Nat.succ_mul, Nat.mul_comm low d] at this
        omega
  have hself := hplace (roundHalfEven n d)
  constructor
  · intro m
    have hm := hplace m
    simp only [id_eq, Nat.dist]
    split_ifs at hround <;> omega
  · intro m
    have hm := hplace m
    simp only [id_eq, Nat.dist]
    split_ifs at hround <;> omega

namespace Binary64

/-! ### Magnitudes -/

theorem units_binade {m : Nat} (hm : m < pow2 52) (k : Nat) :
    units ((k + 1) * pow2 52 + m) = (pow2 52 + m) * pow2 k := by
  have hge : ¬ (k + 1) * pow2 52 + m < pow2 52 := by
    rw [Nat.succ_mul]
    omega
  have hmod : ((k + 1) * pow2 52 + m) % pow2 52 = m := Nat.mul_add_mod_of_lt hm
  have hdiv : ((k + 1) * pow2 52 + m) / pow2 52 = k + 1 := by
    rw [Nat.mul_comm, Nat.mul_add_div (pow2_pos 52), Nat.div_eq_of_lt hm, Nat.add_zero]
  rw [units, if_neg hge, hmod, hdiv, Nat.add_sub_cancel]

/-- A significand of 53 bits, the highest of which is set unless the shift is zero.  The power of
two after the last of them is carried into the next binade. -/
theorem units_shifted {q k : Nat} (hq : q ≤ pow2 53) (hk : k = 0 ∨ pow2 52 ≤ q) :
    units (k * pow2 52 + q) = q * pow2 k := by
  have hdouble : pow2 53 = pow2 52 * 2 := pow2_add 52 1
  rcases Nat.lt_or_ge q (pow2 52) with hsmall | hlarge
  · obtain rfl : k = 0 := hk.resolve_right (Nat.not_le.mpr hsmall)
    rw [Nat.zero_mul, Nat.zero_add, units_of_lt hsmall]
    exact (Nat.mul_one q).symm
  obtain ⟨m, rfl⟩ := Nat.exists_eq_add_of_le hlarge
  rcases Nat.lt_or_ge m (pow2 52) with hm | hm
  · rw [← units_binade hm, Nat.succ_mul, Nat.add_assoc]
  · obtain rfl : m = pow2 52 := by omega
    have hcarry : k * pow2 52 + (pow2 52 + pow2 52) = (k + 1 + 1) * pow2 52 + 0 := by
      rw [Nat.succ_mul, Nat.succ_mul]
      omega
    rw [hcarry, units_binade (pow2_pos 52), pow2_add k 1, Nat.add_zero, ← Nat.mul_two,
      Nat.mul_assoc, Nat.mul_comm 2]
    rfl

theorem units_strictMono : StrictMono units := by
  refine strictMono_nat_of_lt_succ fun rank => ?_
  have hdouble : pow2 53 = pow2 52 * 2 := pow2_add 52 1
  rcases Nat.lt_or_ge rank (pow2 52) with hsmall | hlarge
  · have hself := @units_shifted rank 0 (by omega) (.inl rfl)
    have hnext := @units_shifted (rank + 1) 0 (by omega) (.inl rfl)
    rw [Nat.zero_mul, Nat.zero_add] at hself hnext
    rw [hself, hnext]
    exact Nat.mul_lt_mul_of_pos_right (Nat.lt_succ_self rank) (pow2_pos 0)
  · obtain ⟨m, k, hm, rfl, hself⟩ := units_of_le hlarge
    have hnext := @units_shifted (pow2 52 + m + 1) k (by omega) (.inr (by omega))
    have hrank : (k + 1) * pow2 52 + m + 1 = k * pow2 52 + (pow2 52 + m + 1) := by
      rw [Nat.succ_mul]
      omega
    rw [hself, hrank, hnext]
    exact Nat.mul_lt_mul_of_pos_right (Nat.lt_succ_self _) (pow2_pos k)

/-- Magnitudes from a power of two upwards are multiples of the unit in the last of 53 places. -/
theorem exists_units_eq_mul {rank k : Nat} (h : k = 0 ∨ pow2 (k + 52) ≤ units rank) :
    ∃ m, units rank = m * pow2 k := by
  rcases Nat.eq_zero_or_pos k with rfl | hpos
  · exact ⟨units rank, (Nat.mul_one _).symm⟩
  have hle : pow2 (k + 52) ≤ units rank := h.resolve_left (Nat.ne_of_gt hpos)
  rcases Nat.lt_or_ge rank (pow2 52) with hsmall | hlarge
  · rw [units_of_lt hsmall] at hle
    exact absurd (Nat.lt_of_le_of_lt hle hsmall) (Nat.not_lt.mpr (pow2_le (Nat.le_add_left 52 k)))
  · obtain ⟨m, j, hm, -, hunits⟩ := units_of_le hlarge
    have hdouble : pow2 53 = pow2 52 * 2 := pow2_add 52 1
    have hlt : pow2 (k + 52) < pow2 (j + 53) := by
      calc pow2 (k + 52) ≤ (pow2 52 + m) * pow2 j := hunits ▸ hle
        _ < pow2 53 * pow2 j := Nat.mul_lt_mul_of_pos_right (by omega) (pow2_pos j)
        _ = pow2 (j + 53) := by rw [Nat.mul_comm, ← pow2_add]
    have hj : k ≤ j := by
      have := (Nat.pow_lt_pow_iff_right Nat.one_lt_two).mp hlt
      omega
    refine ⟨(pow2 52 + m) * pow2 (j - k), ?_⟩
    rw [hunits, Nat.mul_assoc, ← pow2_add, Nat.sub_add_cancel hj]

/-! ### Ranks -/

/-- What is left of a quotient when the bits that are lost are rounded away. -/
theorem significand_bounds (n d : Nat) :
    let lost := (n / d).log2 - 52
    let significand := roundHalfEven n (d * pow2 lost)
    significand ≤ pow2 53 ∧ (lost = 0 ∨ pow2 52 ≤ significand) := by
  intro lost significand
  obtain ⟨hfull, hset⟩ := kept_bounds (n / d)
  have hbounds : n / d / pow2 lost ≤ significand ∧ significand ≤ n / d / pow2 lost + 1 := by
    rw [Nat.div_div_eq_div_mul]
    exact roundHalfEven_bounds n (d * pow2 lost)
  refine ⟨Nat.le_trans hbounds.2 hfull, ?_⟩
  rcases Nat.eq_zero_or_pos lost with hlost | hlost
  · exact .inl hlost
  · exact .inr (Nat.le_trans (hset hlost) hbounds.1)

/-- **A fraction is rounded to the nearest rank.**  Where bits are lost the magnitudes are multiples
of one unit, of which the nearest is taken; those that are no multiples are below a power of two
that the fraction is not below. -/
theorem isNearest_nearestRank (n : Nat) {d : Nat} (hd : 0 < d) :
    IsNearest units n d (nearestRank n d) := by
  have hrank : nearestRank n d = ((n / d).log2 - 52) * pow2 52 +
      roundHalfEven n (d * pow2 ((n / d).log2 - 52)) := rfl
  obtain ⟨hsmall, hlarge⟩ := significand_bounds n d
  obtain ⟨-, hle⟩ := lost_bounds (n / d)
  generalize (n / d).log2 - 52 = lost at hrank hsmall hlarge hle
  have hnear := isNearest_roundHalfEven n (Nat.mul_pos hd (pow2_pos lost))
  generalize roundHalfEven n (d * pow2 lost) = significand at hrank hsmall hlarge hnear
  have hscale : ∀ m, m * pow2 lost * d = m * (d * pow2 lost) := by
    intro m
    rw [Nat.mul_assoc, Nat.mul_comm (pow2 lost)]
  have hunits : units (nearestRank n d) = significand * pow2 lost := by
    rw [hrank, units_shifted hsmall hlarge]
  have hmagnitude : units (nearestRank n d) * d = significand * (d * pow2 lost) := by
    rw [hunits, hscale]
  -- The magnitudes that are no multiples of the unit are farther away.
  have hoff : ∀ rank, ¬ (lost = 0 ∨ pow2 (lost + 52) ≤ units rank) →
      Nat.dist (units (nearestRank n d) * d) n < Nat.dist (units rank * d) n := by
    intro rank hrank
    obtain ⟨hlost, hbelow⟩ := not_or.mp hrank
    have hpower : pow2 (lost + 52) * d = pow2 52 * (d * pow2 lost) := by
      rw [Nat.add_comm, pow2_add, hscale]
    have hreached : pow2 (lost + 52) * d ≤ n :=
      (Nat.le_div_iff_mul_le hd).mp (hle (Nat.pos_of_ne_zero hlost))
    have hleast : Nat.dist (significand * (d * pow2 lost)) n ≤
        Nat.dist (pow2 52 * (d * pow2 lost)) n := hnear.least (pow2 52)
    rw [hmagnitude]
    rw [← hpower] at hleast
    exact Nat.lt_of_le_of_lt hleast
      (dist_lt_of_lt_of_le (Nat.mul_lt_mul_of_pos_right (Nat.not_le.mp hbelow) hd) hreached)
  constructor
  · intro rank
    by_cases hon : lost = 0 ∨ pow2 (lost + 52) ≤ units rank
    · obtain ⟨m, hm⟩ := exists_units_eq_mul hon
      rw [hmagnitude, hm, hscale]
      exact hnear.least m
    · exact Nat.le_of_lt (hoff rank hon)
  · intro rank hdist
    by_cases hon : lost = 0 ∨ pow2 (lost + 52) ≤ units rank
    · obtain ⟨m, hm⟩ := exists_units_eq_mul hon
      rw [hmagnitude, hm, hscale] at hdist
      refine (hnear.even m hdist).imp ?_ ?_
      · rintro rfl
        exact units_strictMono.injective (hm.trans hunits.symm)
      · intro heven
        have hbinade : pow2 52 % 2 = 0 := by decide
        rw [hrank, Nat.add_mod, Nat.mul_mod, hbinade, heven, Nat.mul_zero]
    · exact absurd hdist (Nat.ne_of_gt (hoff rank hon))

theorem nearestRank_eq_iff {n d rank : Nat} (hd : 0 < d) :
    nearestRank n d = rank ↔ IsNearest units n d rank := by
  constructor
  · rintro rfl
    exact isNearest_nearestRank n hd
  · exact (isNearest_nearestRank n hd).unique units_strictMono hd

/-- The number that a fraction is rounded to has the nearest rank, beyond the finite ones also. -/
theorem ofFraction_eq_iff {negative : Bool} {n d : Nat} {x : Binary64} (hd : 0 < d) :
    ofFraction negative n d = x ↔
      ∃ rank, IsNearest units (n * pow2 1074) d rank ∧ x = ofRank negative rank := by
  rw [ofFraction]
  constructor
  · rintro rfl
    exact ⟨_, isNearest_nearestRank _ hd, rfl⟩
  · rintro ⟨rank, hrank, rfl⟩
    rw [(nearestRank_eq_iff hd).mpr hrank]

theorem isNearest_zero {n d : Nat} (h : 2 * n < d) : IsNearest units n d 0 := by
  have hzero : units 0 = 0 := rfl
  refine ⟨fun rank => ?_, fun _ _ => .inr rfl⟩
  rcases Nat.eq_zero_or_pos rank with rfl | hpos
  · exact Nat.le_refl _
  · have hunits : 0 < units rank := Nat.pos_of_ne_zero (mt units_eq_zero_iff.mp (by omega))
    have hle : d ≤ units rank * d := Nat.le_mul_of_pos_left d hunits
    rw [hzero, Nat.zero_mul]
    unfold Nat.dist
    omega

theorem ofFraction_of_small (negative : Bool) {n d : Nat} (h : 2 * (n * pow2 1074) < d) :
    ofFraction negative n d = ofRank negative 0 :=
  (ofFraction_eq_iff (Nat.lt_of_le_of_lt (Nat.zero_le _) h)).mpr ⟨0, isNearest_zero h, rfl⟩

theorem eq_infinite_of_not_isFinite {negative : Bool} {n d : Nat}
    (h : ¬ (ofFraction negative n d).isFinite = true) :
    ofFraction negative n d = .infinite negative := by
  rw [ofFraction, isFinite_ofRank_iff] at h
  rw [ofFraction, ofRank, dif_neg h]

end Binary64

/-! ### Decimals -/

namespace Decimal

theorem twice_mul_pow2_lt {digits e j k m : Nat} (he : e + 1 ≤ 3 * j) (hdigits : digits < 10 ^ k)
    (hm : k + j = m) : 2 * (digits * pow2 e) < pow10 m := by
  calc 2 * (digits * pow2 e) = digits * pow2 (e + 1) := by
        rw [Nat.mul_left_comm, pow2_add e 1, Nat.mul_comm 2]
        rfl
    _ ≤ digits * 10 ^ j := Nat.mul_le_mul_left _ (Binary64.pow2_le_ten_pow j he)
    _ < 10 ^ k * 10 ^ j := Nat.mul_lt_mul_of_pos_right hdigits (Nat.pow_pos (by omega))
    _ = pow10 m := by rw [← Nat.pow_add, hm, pow10_eq]

/-- A decimal that is too small or too large for a fraction to be made of it is read as the fraction
would be. -/
theorem toBinary_eq_ofFraction (negative : Bool) (d : Decimal) :
    d.toBinary negative = .ofFraction negative (d.digits * pow10 d.exponent.toNat)
      (pow10 (-d.exponent).toNat) := by
  by_cases hzero : d.digits = 0
  · rw [toBinary_eq, if_pos (.inl hzero), hzero, Nat.zero_mul,
      Binary64.ofFraction_of_small negative (by simpa using pow10_pos _)]
  by_cases hsmall : d.magnitude < -400
  · -- So far below one that twice the value is less than a unit.
    have hlt := d.exponent_lt_magnitude
    have hwhole : pow10 d.exponent.toNat = 1 := by
      rw [show d.exponent.toNat = 0 by omega]
      rfl
    have hdigits := (digits_bounds (-400 - d.exponent).toNat hzero).1 (by omega)
    rw [toBinary_eq, if_pos (.inr hsmall), hwhole, Nat.mul_one, Binary64.ofFraction_of_small]
    exact @twice_mul_pow2_lt _ 1074 400 _ _ (by omega) hdigits (by omega)
  by_cases hlarge : 400 < d.magnitude
  · have hread : d.toBinary negative = .infinite negative := by
      rw [toBinary_eq, if_neg (by omega), if_pos hlarge]
    have hfinite := isFinite_toBinary_iff negative d
    rw [hread, ← pow10_eq, ← pow10_eq,
      ← @Binary64.isFinite_ofFraction_iff negative _ _ (pow10_pos _)] at hfinite
    rw [hread]
    exact (Binary64.eq_infinite_of_not_isFinite (mt hfinite.mpr Bool.false_ne_true)).symm
  · exact toBinary_of_bounds negative hzero (by omega) (by omega)

/-- **A decimal is read as the number of the rank nearest to it.** -/
theorem toBinary_eq_iff {negative : Bool} {d : Decimal} {x : Binary64} :
    d.toBinary negative = x ↔
      ∃ rank, IsNearest Binary64.units (d.digits * pow10 d.exponent.toNat * pow2 1074)
        (pow10 (-d.exponent).toNat) rank ∧ x = .ofRank negative rank := by
  rw [toBinary_eq_ofFraction]
  exact Binary64.ofFraction_eq_iff (pow10_pos _)

end Decimal
end FormLower
