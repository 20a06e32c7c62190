import ImpToC.Number.Shortest

/-!
# Rounding a quotient

The floating-point number nearest to a quotient depends on the value of the quotient only,
and where that value is a floating-point number it is this one. So the decimal that a number
is written with reads back to the number.
-/

namespace ImpToC.Number

/-! ## Powers of two -/

theorem shiftLeft_mono {n n' k k' : Nat} (hn : n ≤ n') (hk : k ≤ k') : n <<< k ≤ n' <<< k' := by
  rw [Nat.shiftLeft_eq, Nat.shiftLeft_eq]
  exact Nat.mul_le_mul hn (Nat.pow_le_pow_right (by decide) hk)

theorem shiftLeft_pos {n : Nat} (hn : 0 < n) (k : Nat) : 0 < n <<< k := by
  rw [Nat.shiftLeft_eq]
  exact Nat.mul_pos hn (Nat.two_pow_pos k)

/-! ## Quotients of one value -/

theorem roundHalfEven_mul {k : Nat} (hk : 0 < k) (num den : Nat) :
    roundHalfEven (k * num) (k * den) = roundHalfEven num den := by
  have hmod : k * num % (k * den) = k * (num % den) := Nat.mul_mod_mul_left k num den
  have hbelow : 2 * (k * (num % den)) < k * den ↔ 2 * (num % den) < den := by
    rw [Nat.mul_left_comm, Nat.mul_lt_mul_left hk]
  have habove : k * den < 2 * (k * (num % den)) ↔ den < 2 * (num % den) := by
    rw [Nat.mul_left_comm, Nat.mul_lt_mul_left hk]
  simp only [roundHalfEven, hmod, Nat.mul_div_mul_left num den hk, hbelow, habove]

theorem roundHalfEven_eq_or (num den : Nat) :
    roundHalfEven num den = num / den ∨ roundHalfEven num den = num / den + 1 := by
  have hle := div_le_roundHalfEven num den
  have hge := roundHalfEven_le num den
  omega

namespace Magnitude

theorem ofRatio?_mul {k : Nat} (hk : 0 < k) (num den : Nat) :
    ofRatio? (k * num) (k * den) = ofRatio? num den := by
  simp only [ofRatio?, Nat.shiftLeft_eq, Nat.mul_assoc, Nat.mul_div_mul_left _ den hk,
    roundHalfEven_mul hk]

/-- Quotients of one value are nearest to the same number. -/
theorem ofRatio?_congr {num den num' den' : Nat} (hden : 0 < den) (hden' : 0 < den')
    (h : num * den' = num' * den) : ofRatio? num den = ofRatio? num' den' := by
  calc ofRatio? num den
      = ofRatio? (den' * num) (den' * den) := (ofRatio?_mul hden' num den).symm
    _ = ofRatio? (den * num') (den * den') := by
        rw [Nat.mul_comm den' num, h, Nat.mul_comm num' den, Nat.mul_comm den' den]
    _ = ofRatio? num' den' := ofRatio?_mul hden num' den'

/-! ## Numbers that need no rounding -/

/-- The grade of a number is the place of its leading bit above the lowest 52. -/
theorem log2_units_sub (m : Magnitude) : m.units.log2 - 52 = m.grade := by
  have hgrade : m.grade = m.bits / leadingBit - 1 := rfl
  have hsignificand : m.significand = m.bits - m.grade * leadingBit := rfl
  have hleading : leadingBit = 2 ^ 52 := by decide
  have hdiv := Nat.div_add_mod m.bits leadingBit
  have hmod := Nat.mod_lt m.bits (show 0 < leadingBit by decide)
  by_cases hsmall : m.bits / leadingBit ≤ 1
  · -- Small numbers have grade zero, and fewer than 54 bits.
    have hzero : m.grade = 0 := by omega
    have hunits : m.units < 2 ^ 53 := by
      rw [units, hsignificand, hzero, Nat.zero_mul, Nat.sub_zero, Nat.shiftLeft_zero]
      have hle := Nat.mul_le_mul_left leadingBit hsmall
      omega
    have hlog : m.units.log2 < 53 := by
      by_cases hne : m.units = 0
      · rw [hne]
        decide
      · exact (Nat.log2_lt hne).mpr hunits
    omega
  · -- Other numbers have their leading bit right above the 52 others.
    have hsum : leadingBit * (m.bits / leadingBit) = m.grade * leadingBit + leadingBit := by
      rw [show m.bits / leadingBit = m.grade + 1 by omega, Nat.mul_comm, Nat.succ_mul]
    have hlow : 2 ^ 52 ≤ m.significand := by omega
    have hhigh : m.significand < 2 ^ 53 := by omega
    have hunits : m.units = m.significand * 2 ^ m.grade := Nat.shiftLeft_eq _ _
    have hne : m.units ≠ 0 := by
      rw [hunits]
      exact Nat.mul_ne_zero (by omega) (Nat.ne_of_gt (Nat.two_pow_pos _))
    have hlog : m.units.log2 = 52 + m.grade := by
      rw [Nat.log2_eq_iff hne, hunits]
      constructor
      · rw [Nat.pow_add]
        exact Nat.mul_le_mul_right _ hlow
      · rw [show 52 + m.grade + 1 = 53 + m.grade by omega, Nat.pow_add]
        exact Nat.mul_lt_mul_of_pos_right hhigh (Nat.two_pow_pos _)
    omega

theorem grade_mul_leadingBit_add_significand (m : Magnitude) :
    m.grade * leadingBit + m.significand = m.bits := by
  have hle : m.grade * leadingBit ≤ m.bits := by
    have hdiv := Nat.div_mul_le_self m.bits leadingBit
    have hgrade := Nat.mul_le_mul_right leadingBit (Nat.sub_le (m.bits / leadingBit) 1)
    exact Nat.le_trans hgrade hdiv
  exact Nat.add_sub_cancel' hle

/-- A quotient with the value of a number is rounded to that number. -/
theorem ofRatio?_eq_some {m : Magnitude} {num den : Nat} (hden : 0 < den)
    (h : num <<< 1074 = m.units * den) : ofRatio? num den = some m := by
  have hdiv : num <<< 1074 / den = m.units := by rw [h, Nat.mul_div_cancel _ hden]
  have hscaled : num <<< 1074 = m.significand * (den <<< m.grade) := by
    rw [h, units, Nat.shiftLeft_eq, Nat.shiftLeft_eq, Nat.mul_assoc, Nat.mul_comm (2 ^ m.grade)]
  have hpos := shiftLeft_pos hden m.grade
  have hround : roundHalfEven (num <<< 1074) (den <<< m.grade) = m.significand := by
    rw [hscaled, roundHalfEven_of_dvd hpos (Nat.dvd_mul_left _ _), Nat.mul_div_cancel _ hpos]
  rw [ofRatio?]
  simp only [hdiv, log2_units_sub, hround, grade_mul_leadingBit_add_significand]
  exact dif_pos m.finite

/-! ## The range of the numbers -/

theorem significand_lt (m : Magnitude) : m.significand < 2 * leadingBit := by
  unfold significand grade leadingBit
  omega

theorem grade_le (m : Magnitude) : m.grade ≤ 1074 + 1023 - 52 := by
  have hfinite := m.finite
  unfold grade leadingBit
  omega

theorem bits_of_ofBits? {bits : Nat} {m : Magnitude} (h : ofBits? bits = some m) :
    m.bits = bits := by
  unfold ofBits? at h
  split at h
  · cases h
    rfl
  · cases h

/-- A quotient with a nearest number is not too large. -/
theorem lt_of_ofRatio? {num den : Nat} (hden : 0 < den) {m : Magnitude}
    (h : ofRatio? num den = some m) : num < tenTo 400 * den := by
  have hbits := bits_of_ofBits? h
  have hgrade : (num <<< 1074 / den).log2 - 52 < 0x7FF := by
    apply Nat.lt_of_mul_lt_mul_right (a := leadingBit)
    exact Nat.lt_of_le_of_lt (Nat.le_trans (Nat.le_add_right _ _) (Nat.le_of_eq hbits.symm))
      m.finite
  -- The power is bounded under a name, so that it is compared as it stands.
  obtain ⟨limit, unit, hlog, hscale, hshift⟩ :
      ∃ limit unit, (num <<< 1074 / den).log2 + 1 ≤ limit ∧
        Nat.pow 2 limit ≤ tenTo 400 * unit ∧ ∀ n : Nat, n <<< 1074 = n * unit :=
    ⟨2099, _, by omega, by decide +kernel, fun n => Nat.shiftLeft_eq n 1074⟩
  have hpower := Nat.pow_le_pow_right (show 0 < 2 by decide) hlog
  have hquotient := Nat.lt_of_lt_of_le Nat.lt_log2_self hpower
  have hscaled := (Nat.div_lt_iff_lt_mul hden).mp (Nat.lt_of_lt_of_le hquotient hscale)
  rw [hshift, Nat.mul_right_comm] at hscaled
  exact Nat.lt_of_mul_lt_mul_right hscaled

/-- A quotient that is not rounded to zero is not too small. -/
theorem lt_of_ofRatio?_ne_zero {num den : Nat} (hden : 0 < den) {m : Magnitude}
    (h : ofRatio? num den = some m) (hne : m.bits ≠ 0) : den < tenTo 400 * num := by
  apply Nat.not_le.mp
  intro hle
  obtain ⟨unit, hscale, hshift⟩ :
      ∃ unit, 2 * unit < tenTo 400 ∧ ∀ n : Nat, n <<< 1074 = n * unit :=
    ⟨_, by decide +kernel, fun n => Nat.shiftLeft_eq n 1074⟩
  have hsmall : 2 * num <<< 1074 < den := by
    rw [hshift, Nat.mul_left_comm, Nat.mul_comm]
    rcases Nat.eq_zero_or_pos num with rfl | hnum
    · rwa [Nat.mul_zero]
    · exact Nat.lt_of_lt_of_le (Nat.mul_lt_mul_of_pos_right hscale hnum) hle
  have hbelow : num <<< 1074 < den := by omega
  have hbits := bits_of_ofBits? h
  rw [Nat.div_eq_of_lt hbelow, Nat.log2_zero, Nat.zero_sub, Nat.zero_mul, Nat.zero_add,
    Nat.shiftLeft_zero, roundHalfEven] at hbits
  simp only [Nat.mod_eq_of_lt hbelow, hsmall, if_true, Nat.div_eq_of_lt hbelow] at hbits
  exact hne hbits

/-! ## The shortest decimal -/

/-- A grid point that is chosen reads back. -/
theorem near_of_gridPoint? {near? : Decimal → Option Magnitude} {m : Magnitude} {exponent : Int}
    {d : Decimal} (h : gridPoint? near? m exponent = some d) : near? d = some m := by
  unfold gridPoint? at h
  dsimp only at h
  generalize m.units * tenTo (-exponent).toNat = num at h
  generalize tenTo exponent.toNat <<< 1074 = den at h
  by_cases hfloor : near? ⟨num / den, exponent⟩ = some m
  · by_cases habove : near? ⟨num / den + 1, exponent⟩ = some m
    · rw [decide_eq_true hfloor, decide_eq_true habove] at h
      rw [← Option.some.inj h]
      -- Both neighbours read back, and rounding gives one of them.
      rcases roundHalfEven_eq_or num den with heq | heq
      · rwa [heq]
      · rwa [heq]
    · rw [decide_eq_true hfloor, decide_eq_false habove] at h
      rwa [← Option.some.inj h]
  · by_cases habove : near? ⟨num / den + 1, exponent⟩ = some m
    · rw [decide_eq_false hfloor, decide_eq_true habove] at h
      rwa [← Option.some.inj h]
    · rw [decide_eq_false hfloor, decide_eq_false habove] at h
      cases h

/-- All digits of a number read back, on any grid that is fine enough for its units. -/
theorem nearest?_of_units (m : Magnitude) {n : Nat} {e : Int} (hn : n = 1074) (he : e = -n) :
    (⟨m.units * Nat.pow 5 n, e⟩ : Decimal).nearest? = some m := by
  have hnum : (⟨m.units * Nat.pow 5 n, e⟩ : Decimal).num = m.units * 5 ^ n := by
    rw [Decimal.num, show e.toNat = 0 by omega]
    exact Nat.mul_one _
  have hden : (⟨m.units * Nat.pow 5 n, e⟩ : Decimal).den = 10 ^ n := by
    rw [Decimal.den, show (-e).toNat = n by omega]
    rfl
  rw [Decimal.nearest?, hnum, hden]
  refine ofRatio?_eq_some (Nat.pow_pos (by decide)) ?_
  rw [← hn, Nat.shiftLeft_eq, Nat.mul_assoc, ← Nat.mul_pow]

theorem nearest?_exact (m : Magnitude) : m.exact.nearest? = some m := by
  obtain ⟨n, hn⟩ : ∃ n, n = 1074 := ⟨_, rfl⟩
  rw [exact, ← hn]
  exact m.nearest?_of_units hn (by omega)

theorem firstPoint_eq_or (point? : Int → Option Decimal) (last : Decimal) (leading : Int)
    (count tries : Nat) :
    firstPoint point? last leading count tries = last ∨
      ∃ exponent, point? exponent = some (firstPoint point? last leading count tries) := by
  induction tries generalizing count with
  | zero => exact .inl rfl
  | succ tries ih =>
      rw [firstPoint]
      cases hpoint : point? (leading - count + 1) with
      | some d => exact .inr ⟨_, hpoint⟩
      | none => exact ih (count + 1)

/-- The decimal that a number is written with reads back to it. -/
theorem nearest?_shortest (m : Magnitude) : m.shortest.nearest? = some m := by
  unfold shortest
  split
  next hzero =>
    have hunits : m.units = 0 := by
      rw [units, significand, hzero, Nat.zero_sub, Nat.zero_shiftLeft]
    have hnum : (⟨0, 0⟩ : Decimal).num = 0 := rfl
    refine ofRatio?_eq_some Nat.one_pos ?_
    rw [hnum, hunits, Nat.zero_mul, Nat.zero_shiftLeft]
  next =>
    rcases firstPoint_eq_or (gridPoint? Decimal.nearest? m) m.exact m.leadingExponent 1 17 with
      heq | ⟨exponent, hpoint⟩
    · rw [heq]
      exact m.nearest?_exact
    · exact near_of_gridPoint? hpoint

end Magnitude

end ImpToC.Number
