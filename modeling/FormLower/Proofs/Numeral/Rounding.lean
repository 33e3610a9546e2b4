import FormLower.Numeral.Shortest
import Mathlib.Data.Nat.Log
import Mathlib.Tactic.Ring

/-! # Rounding and the shortest decimal

Rounding a fraction depends on its value only (`nearestRank_congr`), and a fraction that is the
magnitude of a rank is rounded to that rank (`nearestRank_units`).  So a decimal may be scaled by a
power of ten without being read as another number (`Decimal.toBinary_scale`), and the decimal that
is found for a finite number is read as that number (`shortest_toBinary`). -/

namespace FormLower

theorem pow2_eq (n : Nat) : pow2 n = 2 ^ n := rfl

theorem pow10_eq (n : Nat) : pow10 n = 10 ^ n := rfl

theorem pow2_pos (n : Nat) : 0 < pow2 n := Nat.two_pow_pos n

theorem pow10_pos (n : Nat) : 0 < pow10 n := Nat.pow_pos (by omega)

theorem pow2_add (m n : Nat) : pow2 (m + n) = pow2 m * pow2 n := Nat.pow_add 2 m n

theorem pow2_le {m n : Nat} (h : m ≤ n) : pow2 m ≤ pow2 n := Nat.pow_le_pow_right Nat.two_pos h

/-! ### Quotients -/

theorem roundHalfEven_mul (n d : Nat) {c : Nat} (hc : 0 < c) :
    roundHalfEven (n * c) (d * c) = roundHalfEven n d := by
  have hlt : 2 * (n % d * c) < d * c ↔ 2 * (n % d) < d := by
    rw [← Nat.mul_assoc]
    exact Nat.mul_lt_mul_right hc
  have hgt : d * c < 2 * (n % d * c) ↔ d < 2 * (n % d) := by
    rw [← Nat.mul_assoc]
    exact Nat.mul_lt_mul_right hc
  simp only [roundHalfEven, Nat.mul_div_mul_right n d hc, Nat.mul_mod_mul_right, hlt, hgt]

theorem roundHalfEven_exact (q : Nat) {d : Nat} (hd : 0 < d) : roundHalfEven (q * d) d = q := by
  simp [roundHalfEven, Nat.mul_div_cancel q hd, hd]

namespace Binary64

theorem nearestRank_mul (n d : Nat) {c : Nat} (hc : 0 < c) :
    nearestRank (n * c) (d * c) = nearestRank n d := by
  simp only [nearestRank, Nat.mul_div_mul_right n d hc]
  rw [Nat.mul_right_comm, roundHalfEven_mul _ _ hc]

/-- Fractions of one value have one nearest rank. -/
theorem nearestRank_congr {n d n' d' : Nat} (hd : 0 < d) (hd' : 0 < d') (h : n * d' = n' * d) :
    nearestRank n d = nearestRank n' d' := by
  calc nearestRank n d = nearestRank (n * d') (d * d') := (nearestRank_mul n d hd').symm
    _ = nearestRank (n' * d) (d' * d) := by rw [h, Nat.mul_comm d d']
    _ = nearestRank n' d' := nearestRank_mul n' d' hd

theorem ofFraction_congr (negative : Bool) {n d n' d' : Nat} (hd : 0 < d) (hd' : 0 < d')
    (h : n * d' = n' * d) : ofFraction negative n d = ofFraction negative n' d' := by
  have hscaled : n * pow2 1074 * d' = n' * pow2 1074 * d := by
    rw [Nat.mul_right_comm, h, Nat.mul_right_comm]
  rw [ofFraction, ofFraction, nearestRank_congr hd hd' hscaled]

/-! ### Magnitudes of ranks -/

theorem units_of_le {rank : Nat} (h : pow2 52 ≤ rank) :
    ∃ m k, m < pow2 52 ∧ rank = (k + 1) * pow2 52 + m ∧ units rank = (pow2 52 + m) * pow2 k := by
  have hdiv : 1 ≤ rank / pow2 52 := (Nat.one_le_div_iff (pow2_pos 52)).mpr h
  refine ⟨rank % pow2 52, rank / pow2 52 - 1, Nat.mod_lt _ (pow2_pos 52), ?_, ?_⟩
  · rw [Nat.sub_add_cancel hdiv, Nat.mul_comm]
    exact (Nat.div_add_mod _ _).symm
  · rw [units, if_neg (Nat.not_lt.mpr h)]

theorem units_of_lt {rank : Nat} (h : rank < pow2 52) : units rank = rank := if_pos h

theorem units_eq_zero_iff {rank : Nat} : units rank = 0 ↔ rank = 0 := by
  rcases Nat.lt_or_ge rank (pow2 52) with h | h
  · rw [units_of_lt h]
  · obtain ⟨m, k, -, -, hunits⟩ := units_of_le h
    have hne : (pow2 52 + m) * pow2 k ≠ 0 :=
      Nat.mul_ne_zero (Nat.ne_of_gt (Nat.add_pos_left (pow2_pos 52) m)) (Nat.ne_of_gt (pow2_pos k))
    have hrank : rank ≠ 0 := Nat.ne_of_gt (Nat.lt_of_lt_of_le (pow2_pos 52) h)
    rw [hunits]
    exact iff_of_false hne hrank

/-- A significand is shifted by less than 2046 binades. -/
theorem shift_lt {m k : Nat} (h : (k + 1) * pow2 52 + m < rankLimit) : k < 2046 := by
  have hmul : (k + 1) * pow2 52 < 2047 * pow2 52 := Nat.lt_of_le_of_lt (Nat.le_add_right _ m) h
  have hlt := Nat.lt_of_mul_lt_mul_right hmul
  omega

theorem units_lt {rank : Nat} (h : rank < rankLimit) : units rank < pow2 (1024 + 1074) := by
  rcases Nat.lt_or_ge rank (pow2 52) with hsmall | hlarge
  · rw [units_of_lt hsmall]
    exact Nat.lt_of_lt_of_le hsmall (pow2_le (by omega))
  · obtain ⟨m, k, hm, hrank, hunits⟩ := units_of_le hlarge
    have hk : k < 2046 := shift_lt (hrank ▸ h)
    have hsum : pow2 52 + m < pow2 53 := by
      simp only [pow2_eq] at *
      omega
    calc units rank = (pow2 52 + m) * pow2 k := hunits
      _ < pow2 53 * pow2 k := Nat.mul_lt_mul_of_pos_right hsum (pow2_pos k)
      _ = pow2 (53 + k) := (pow2_add 53 k).symm
      _ ≤ pow2 (1024 + 1074) := pow2_le (by omega)

/-- A significand of 53 bits loses none but those that it is shifted by. -/
theorem log2_shifted {m : Nat} (hm : m < pow2 52) (k : Nat) :
    ((pow2 52 + m) * pow2 k).log2 = 52 + k := by
  have hne : (pow2 52 + m) * pow2 k ≠ 0 :=
    Nat.mul_ne_zero (Nat.ne_of_gt (Nat.add_pos_left (pow2_pos 52) m)) (Nat.ne_of_gt (pow2_pos k))
  rw [Nat.log2_eq_iff hne]
  simp only [pow2_eq] at *
  constructor
  · rw [Nat.pow_add]
    exact Nat.mul_le_mul_right _ (Nat.le_add_right _ m)
  · rw [show 52 + k + 1 = 53 + k by omega, Nat.pow_add]
    exact Nat.mul_lt_mul_of_pos_right (by omega) (pow2_pos k)

/-- **The magnitude of a rank is rounded to that rank.** -/
theorem nearestRank_units (rank : Nat) {d : Nat} (hd : 0 < d) :
    nearestRank (units rank * d) d = rank := by
  have hround : ∀ q e, 0 < e → roundHalfEven (q * e) (1 * e) = q := by
    intro q e he
    rw [Nat.one_mul, roundHalfEven_exact q he]
  have hone : nearestRank (units rank) 1 = rank := by
    rw [nearestRank, Nat.div_one]
    rcases Nat.lt_or_ge rank (pow2 52) with h | h
    · rw [units_of_lt h]
      have hlost : rank.log2 - 52 = 0 := by
        rcases Nat.eq_zero_or_pos rank with rfl | hpos
        · rfl
        · have := (Nat.log2_lt (Nat.ne_of_gt hpos)).mpr h
          omega
      have hrank := hround rank 1 Nat.one_pos
      rw [Nat.mul_one] at hrank
      rw [hlost, Nat.zero_mul, Nat.zero_add]
      exact hrank
    · obtain ⟨m, k, hm, hrank, hunits⟩ := units_of_le h
      rw [hunits, log2_shifted hm, Nat.add_sub_cancel_left,
        hround (pow2 52 + m) (pow2 k) (pow2_pos k), hrank, Nat.succ_mul, Nat.add_assoc]
  calc nearestRank (units rank * d) d = nearestRank (units rank * d) (1 * d) := by rw [Nat.one_mul]
    _ = nearestRank (units rank) 1 := nearestRank_mul _ _ hd
    _ = rank := hone

theorem ofRank_of_lt (negative : Bool) {rank : Nat} (h : rank < rankLimit) :
    ofRank negative rank = .finite negative ⟨rank, h⟩ := dif_pos h

/-- A fraction that is the magnitude of a rank is read as the number of that rank. -/
theorem ofFraction_units (negative : Bool) {rank n d : Nat} (h : rank < rankLimit) (hd : 0 < d)
    (hn : n * pow2 1074 = units rank * d) :
    ofFraction negative n d = .finite negative ⟨rank, h⟩ := by
  rw [ofFraction, hn, nearestRank_units rank hd, ofRank_of_lt negative h]

end Binary64

/-! ### Decimals -/

namespace Decimal

theorem digitChars_mul_pow10 {n : Nat} (hn : 0 < n) (k : Nat) :
    digitChars (n * 10 ^ k) = digitChars n ++ List.replicate k '0' := by
  induction k with
  | zero => simp
  | succ k ih =>
      have hpos : 0 < n * 10 ^ k := Nat.mul_pos hn (Nat.pow_pos (by omega))
      have hstep := @Nat.toDigits_append_toDigits 10 (n * 10 ^ k) 0 (by omega) hpos (by omega)
      have hnext : n * 10 ^ (k + 1) = 10 * (n * 10 ^ k) + 0 := by
        rw [Nat.pow_succ, ← Nat.mul_assoc, Nat.mul_comm, Nat.add_zero]
      rw [hnext, digitChars, ← hstep]
      change digitChars (n * 10 ^ k) ++ ['0'] = _
      rw [ih, List.append_assoc, List.replicate_succ']

/-- The digits of a number that is below a power of ten, and those of one that is not. -/
theorem length_digitChars_le_iff {n k : Nat} (hk : 0 < k) :
    (digitChars n).length ≤ k ↔ n < 10 ^ k := Nat.length_toDigits_le_iff (by omega) hk

/-- The exponent of the power of ten that a decimal is below. -/
def magnitude (d : Decimal) : Int := d.exponent + (digitChars d.digits).length

theorem lt_magnitude {d : Decimal} {k : Nat} (hk : 0 < k) (h : 10 ^ k ≤ d.digits) :
    d.exponent + k < d.magnitude := by
  have hlonger : ¬ (digitChars d.digits).length ≤ k := by
    rw [length_digitChars_le_iff hk]
    exact Nat.not_lt.mpr h
  rw [magnitude]
  omega

theorem magnitude_le {d : Decimal} {k : Nat} (hk : 0 < k) (h : d.digits < 10 ^ k) :
    d.magnitude ≤ d.exponent + k := by
  have hshorter := (length_digitChars_le_iff hk).mpr h
  rw [magnitude]
  omega

theorem toBinary_eq (negative : Bool) (d : Decimal) :
    d.toBinary negative =
      if d.digits = 0 ∨ d.magnitude < -400 then .ofRank negative 0
      else if 400 < d.magnitude then .infinite negative
      else .ofFraction negative (d.digits * pow10 d.exponent.toNat) (pow10 (-d.exponent).toNat) :=
  rfl

theorem toBinary_of_bounds (negative : Bool) {d : Decimal} (hd : d.digits ≠ 0)
    (hlow : -400 ≤ d.magnitude) (hhigh : d.magnitude ≤ 400) :
    d.toBinary negative = .ofFraction negative (d.digits * pow10 d.exponent.toNat)
      (pow10 (-d.exponent).toNat) := by
  rw [toBinary_eq, if_neg (by omega), if_neg (by omega)]

/-- **A decimal stands for its value**, with however many zeros it is written. -/
theorem toBinary_scale (negative : Bool) (n k : Nat) (e : Int) :
    (Decimal.mk (n * 10 ^ k) (e - k)).toBinary negative =
      (Decimal.mk n e).toBinary negative := by
  rcases Nat.eq_zero_or_pos n with rfl | hn
  · simp only [Nat.zero_mul, toBinary_eq, true_or, if_true]
  · have hzero : n * 10 ^ k = 0 ↔ n = 0 :=
      ⟨fun h => absurd h (Nat.ne_of_gt (Nat.mul_pos hn (Nat.pow_pos (by omega)))), by omega⟩
    have hmagnitude : (Decimal.mk (n * 10 ^ k) (e - k)).magnitude = (Decimal.mk n e).magnitude := by
      simp only [magnitude, digitChars_mul_pow10 hn, List.length_append, List.length_replicate]
      omega
    have hvalue : n * 10 ^ k * pow10 (e - k).toNat * pow10 (-e).toNat =
        n * pow10 e.toNat * pow10 (-(e - k)).toNat := by
      simp only [pow10_eq, Nat.mul_assoc, ← Nat.pow_add]
      congr 2
      omega
    have hfraction := Binary64.ofFraction_congr negative (pow10_pos _) (pow10_pos _) hvalue
    simp only [toBinary_eq, hmagnitude, hzero, hfraction]

theorem toBinary_sign {d : Decimal} {rank : Fin Binary64.rankLimit}
    (h : d.toBinary false = .finite false rank) (negative : Bool) :
    d.toBinary negative = .finite negative rank := by
  have hrank : ∀ n, Binary64.ofRank false n = .finite false rank →
      Binary64.ofRank negative n = .finite negative rank := by
    intro n hn
    unfold Binary64.ofRank at hn ⊢
    split at hn
    · next hlt =>
        cases hn
        rw [dif_pos hlt]
    · cases hn
  rw [toBinary_eq] at h ⊢
  split at h
  · next hzero =>
      rw [if_pos hzero]
      exact hrank 0 h
  · next hzero =>
      rw [if_neg hzero]
      split at h
      · cases h
      · next hlarge =>
          rw [if_neg hlarge]
          exact hrank _ h

end Decimal

namespace Binary64

/-! ### The shortest decimal -/

theorem ten_pow_le_mul_five_pow {u e : Nat} (hu : 0 < u) (n : Nat) (he : 3 * n ≤ e) :
    10 ^ (2 * n) ≤ u * Nat.pow 5 e := by
  calc 10 ^ (2 * n) = (10 ^ 2) ^ n := Nat.pow_mul 10 2 n
    _ ≤ (5 ^ 3) ^ n := Nat.pow_le_pow_left (by omega) n
    _ = 5 ^ (3 * n) := (Nat.pow_mul 5 3 n).symm
    _ ≤ 5 ^ e := Nat.pow_le_pow_right (by omega) he
    _ ≤ u * 5 ^ e := Nat.le_mul_of_pos_left _ hu

theorem pow2_le_ten_pow {e : Nat} (n : Nat) (he : e ≤ 3 * n) : pow2 e ≤ 10 ^ n := by
  calc pow2 e ≤ 2 ^ (3 * n) := pow2_le he
    _ = (2 ^ 3) ^ n := Nat.pow_mul 2 3 n
    _ ≤ 10 ^ n := Nat.pow_le_pow_left (by omega) n

theorem five_pow_mul_two_pow (u e : Nat) : u * 5 ^ e * pow10 0 * pow2 e = u * pow10 e := by
  rw [pow10_eq, pow10_eq, pow2_eq, Nat.pow_zero, Nat.mul_one, Nat.mul_assoc, ← Nat.mul_pow]

theorem mul_five_pow_lt {u m e : Nat} (n : Nat) (hm : m ≤ 3 * n) (hu : u < pow2 (m + e)) :
    u * 5 ^ e < 10 ^ (n + e) := by
  calc u * 5 ^ e < 2 ^ (m + e) * 5 ^ e := Nat.mul_lt_mul_of_pos_right hu (Nat.pow_pos (by omega))
    _ = 2 ^ m * 10 ^ e := by rw [Nat.pow_add, Nat.mul_assoc, ← Nat.mul_pow]
    _ ≤ 10 ^ n * 10 ^ e := Nat.mul_le_mul_right _ (pow2_le_ten_pow n hm)
    _ = 10 ^ (n + e) := (Nat.pow_add 10 n e).symm

/-- The exact decimal of a number is within the bounds outside which decimals are not read in full:
`5 ^ 1074` has more than 716 digits, and `2 ^ 1024` less than 343. -/
theorem exactDecimal_magnitude {rank : Nat} (h : rank < rankLimit) (hne : rank ≠ 0) :
    -400 ≤ (exactDecimal rank).magnitude ∧ (exactDecimal rank).magnitude ≤ 400 := by
  have hunits : 0 < units rank := Nat.pos_of_ne_zero fun hzero => hne (units_eq_zero_iff.mp hzero)
  have hlow := @Decimal.lt_magnitude (exactDecimal rank) (2 * 358) (by omega)
    (ten_pow_le_mul_five_pow hunits 358 (by omega))
  have hhigh := @Decimal.magnitude_le (exactDecimal rank) (342 + 1074) (by omega)
    (mul_five_pow_lt 342 (by omega) (units_lt h))
  have hexponent : (exactDecimal rank).exponent = -1074 := rfl
  omega

theorem exactDecimal_toBinary {rank : Nat} (h : rank < rankLimit) (hne : rank ≠ 0) :
    (exactDecimal rank).toBinary false = .finite false ⟨rank, h⟩ := by
  obtain ⟨hlow, hhigh⟩ := exactDecimal_magnitude h hne
  have hunits : 0 < units rank := Nat.pos_of_ne_zero fun hzero => hne (units_eq_zero_iff.mp hzero)
  have hdigits : (exactDecimal rank).digits ≠ 0 :=
    Nat.ne_of_gt (ten_pow_le_mul_five_pow hunits 0 (by omega))
  rw [Decimal.toBinary_of_bounds false hdigits hlow hhigh]
  exact ofFraction_units false h (pow10_pos 1074) (five_pow_mul_two_pow (units rank) 1074)

theorem nearer_eq (tie : Tie) (low : Nat) (below above : Decimal) (order : Ordering) :
    nearer tie low below above order = below ∨ nearer tie low below above order = above := by
  cases order with
  | lt => exact .inl rfl
  | gt => exact .inr rfl
  | eq =>
      cases tie with
      | away => exact .inr rfl
      | even =>
          by_cases heven : low % 2 = 0
          · exact .inl (if_pos heven)
          · exact .inr (if_neg heven)

theorem readsAs_gridNeighbour {tie : Tie} {rank k : Nat} {d : Decimal}
    (h : gridNeighbour tie rank k = some d) : readsAs rank d = true := by
  unfold gridNeighbour at h
  extract_lets low below above at h
  split at h
  · next hbelow =>
      split at h
      · next habove =>
          obtain rfl := Option.some.inj h
          rcases nearer_eq tie low below above (compareTwice rank (2 * low + 1) k) with heq | heq
          · rw [heq, hbelow]
          · rw [heq, habove]
      · obtain rfl := Option.some.inj h
        exact hbelow
  · split at h
    · next habove =>
        obtain rfl := Option.some.inj h
        exact habove
    · cases h

/-- **The shortest decimal of a number is read as that number.** -/
theorem shortest_toBinary (tie : Tie) {rank : Nat} (h : rank < rankLimit) (hne : rank ≠ 0) :
    (shortest tie rank).toBinary false = .finite false ⟨rank, h⟩ := by
  unfold shortest
  dsimp only
  generalize (digitChars (scaledUnits rank)).length = length
  cases hfound : (List.range 17).findSome? fun i => gridNeighbour tie rank (length - (i + 1)) with
  | none =>
      rw [Option.getD_none]
      exact exactDecimal_toBinary h hne
  | some d =>
      obtain ⟨i, -, hi⟩ := List.exists_of_findSome?_eq_some hfound
      have hreads := of_decide_eq_true (readsAs_gridNeighbour hi)
      rw [Option.getD_some, hreads, ofRank_of_lt false h]

end Binary64
end FormLower
