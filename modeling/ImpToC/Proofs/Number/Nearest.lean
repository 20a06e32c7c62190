import Mathlib.Data.Nat.Cast.Order.Field
import Mathlib.Data.Rat.Cast.Order
import Mathlib.Tactic.FieldSimp
import Mathlib.Tactic.Linarith
import Mathlib.Tactic.Ring
import ImpToC.Proofs.Number.Rounding

/-!
# The nearest floating-point number

A quotient is rounded on the grid of the numbers around it: those with 53 significant bits up to
its leading one, or all units for small ones. No floating-point number lies between two
neighbours on that grid, so the one that is rounded to is nearest among all. There is none just
if the quotient is not below the half-way point between the largest number and `2 ^ 1024`.
-/

namespace ImpToC.Number

/-! ## Half-way points -/

/-- A quotient is rounded down if it is below the half-way point between two whole numbers, up if
it is above, and on it to the even one. -/
theorem roundHalfEven_cases (num den : Nat) :
    (roundHalfEven num den = num / den ∧ 2 * num ≤ (2 * (num / den) + 1) * den ∧
        (2 * num = (2 * (num / den) + 1) * den → num / den % 2 = 0)) ∨
      (roundHalfEven num den = num / den + 1 ∧ (2 * (num / den) + 1) * den ≤ 2 * num ∧
        (2 * num = (2 * (num / den) + 1) * den → (num / den + 1) % 2 = 0)) := by
  have hdiv := Nat.div_add_mod num den
  have hhalf : (2 * (num / den) + 1) * den = 2 * (den * (num / den)) + den := by ring
  rw [hhalf, roundHalfEven]
  split
  next hbelow => exact .inl ⟨rfl, by omega, by omega⟩
  next hbelow =>
    split
    next habove => exact .inr ⟨rfl, by omega, by omega⟩
    next habove =>
      rcases Nat.mod_two_eq_zero_or_one (num / den) with heven | hodd
      · exact .inl ⟨by omega, by omega, fun _ => heven⟩
      · exact .inr ⟨by omega, by omega, fun _ => by omega⟩

/-- The half-way point in terms of the quotient. -/
theorem roundHalfEven_half_way (num : Nat) {den : Nat} (hden : 0 < den) :
    (roundHalfEven num den = num / den ∧ (num / den : ℚ) ≤ (num / den : Nat) + 1 / 2 ∧
        ((num / den : ℚ) = (num / den : Nat) + 1 / 2 → num / den % 2 = 0)) ∨
      (roundHalfEven num den = num / den + 1 ∧ ((num / den : Nat) : ℚ) + 1 / 2 ≤ num / den ∧
        ((num / den : ℚ) = (num / den : Nat) + 1 / 2 → (num / den + 1) % 2 = 0)) := by
  have hpos : (0 : ℚ) < den := by exact_mod_cast hden
  have htie (h : (num / den : ℚ) = (num / den : Nat) + 1 / 2) :
      2 * num = (2 * (num / den) + 1) * den := by
    rw [div_eq_iff hpos.ne'] at h
    have h' : (2 * num : ℚ) = (2 * (num / den : Nat) + 1) * den := by linarith
    exact_mod_cast h'
  rcases roundHalfEven_cases num den with ⟨hround, hle, heven⟩ | ⟨hround, hle, heven⟩
  · refine .inl ⟨hround, ?_, fun h => heven (htie h)⟩
    have hle' : (2 * num : ℚ) ≤ (2 * (num / den : Nat) + 1) * den := by exact_mod_cast hle
    rw [div_le_iff₀ hpos]
    linarith
  · refine .inr ⟨hround, ?_, fun h => heven (htie h)⟩
    have hle' : (2 * (num / den : Nat) + 1) * den ≤ (2 * num : ℚ) := by exact_mod_cast hle
    rw [le_div_iff₀ hpos]
    linarith

/-- Rounding a quotient comes as close as anything that does not lie between the whole numbers
around it, and to an even number if something else is as close. -/
theorem roundHalfEven_closest {num den : Nat} (hden : 0 < den) {x : ℚ}
    (hx : x ≤ (num / den : Nat) ∨ ((num / den : Nat) : ℚ) + 1 ≤ x) :
    |(num / den : ℚ) - roundHalfEven num den| ≤ |(num / den : ℚ) - x| ∧
      (|(num / den : ℚ) - x| = |(num / den : ℚ) - roundHalfEven num den| →
        x ≠ roundHalfEven num den → roundHalfEven num den % 2 = 0) := by
  have hpos : (0 : ℚ) < den := by exact_mod_cast hden
  have hcases := roundHalfEven_half_way num hden
  have hfloor : ((num / den : Nat) : ℚ) ≤ num / den := Nat.cast_div_le
  have hceil : (num / den : ℚ) < (num / den : Nat) + 1 := by
    rw [div_lt_iff₀ hpos]
    exact_mod_cast Nat.lt_mul_of_div_lt (Nat.lt_succ_self _) hden
  generalize (num / den : ℚ) = y at *
  generalize num / den = f at *
  rcases hcases with ⟨hround, hhalf, heven⟩ | ⟨hround, hhalf, heven⟩
  · rw [hround, abs_of_nonneg (by linarith)]
    rcases hx with hx | hx
    · rw [abs_of_nonneg (by linarith)]
      exact ⟨by linarith, fun heq hne => absurd (by linarith) hne⟩
    · rw [abs_of_nonpos (by linarith)]
      exact ⟨by linarith, fun heq _ => heven (by linarith)⟩
  · rw [hround, Nat.cast_add, Nat.cast_one, abs_of_nonpos (by linarith)]
    rcases hx with hx | hx
    · rw [abs_of_nonneg (by linarith)]
      exact ⟨by linarith, fun heq _ => heven (by linarith)⟩
    · rw [abs_of_nonpos (by linarith)]
      exact ⟨by linarith, fun heq hne => absurd (by linarith) hne⟩

/-- A quotient is rounded to less than an even number just if it is below the half-way point in
front of that number. -/
theorem roundHalfEven_lt_iff {num den k : Nat} (hden : 0 < den) (hk : k % 2 = 0) :
    roundHalfEven num den < k ↔ 2 * num + den < 2 * (k * den) := by
  have hfloor : num / den * den ≤ num := Nat.div_mul_le_self num den
  have hceil : num < (num / den + 1) * den := Nat.lt_mul_of_div_lt (Nat.lt_succ_self _) hden
  have hcases := roundHalfEven_cases num den
  rw [show (2 * (num / den) + 1) * den = 2 * (num / den * den) + den by ring] at hcases
  rw [Nat.succ_mul] at hceil
  rcases Nat.lt_trichotomy (num / den + 1) k with hlt | heq | hgt
  · have hmul := Nat.mul_le_mul_right den hlt
    rw [Nat.succ_mul, Nat.succ_mul] at hmul
    omega
  · have hmul : k * den = num / den * den + den := by rw [← heq, Nat.succ_mul]
    omega
  · have hmul := Nat.mul_le_mul_right den (Nat.le_of_lt_succ hgt)
    omega

namespace Magnitude

/-! ## Grids -/

/-- The power of two, in units, of the last bit that is kept of a quotient. -/
def gradeOf (num den : Nat) : Nat := (num <<< 1074 / den).log2 - 52

/-- The significant bits of a quotient. -/
def kept (num den : Nat) : Nat := num <<< 1074 / (den <<< gradeOf num den)

/-- The significant bits of a quotient after rounding. -/
def rounded (num den : Nat) : Nat := roundHalfEven (num <<< 1074) (den <<< gradeOf num den)

theorem ofRatio?_eq (num den : Nat) :
    ofRatio? num den = ofBits? (gradeOf num den * leadingBit + rounded num den) := rfl

theorem rounded_eq_or (num den : Nat) :
    rounded num den = kept num den ∨ rounded num den = kept num den + 1 :=
  roundHalfEven_eq_or _ _

/-- Of a quotient with more than 53 bits there are 53 kept, and of others all before the point. -/
theorem kept_bounds (num den : Nat) :
    kept num den < 2 ^ 53 ∧ (gradeOf num den = 0 ∨ 2 ^ 52 ≤ kept num den) := by
  have hkept : kept num den = num <<< 1074 / den / 2 ^ gradeOf num den := by
    rw [kept, Nat.shiftLeft_eq den, Nat.div_div_eq_div_mul]
  have hgrade : gradeOf num den = (num <<< 1074 / den).log2 - 52 := rfl
  rw [hkept]
  generalize gradeOf num den = g at *
  generalize num <<< 1074 / den = n at *
  have hpos : 0 < 2 ^ g := Nat.two_pow_pos g
  constructor
  · rw [Nat.div_lt_iff_lt_mul hpos, ← Nat.pow_add]
    exact Nat.lt_of_lt_of_le Nat.lt_log2_self (Nat.pow_le_pow_right (by decide) (by omega))
  · by_cases hg : g = 0
    · exact .inl hg
    · have hlog : n.log2 = 52 + g := by omega
      have hne : n ≠ 0 := by
        rintro rfl
        rw [Nat.log2_zero] at hlog
        omega
      right
      rw [Nat.le_div_iff_mul_le hpos, ← Nat.pow_add, ← hlog]
      exact Nat.log2_self_le hne

/-- The value of a pattern that is made of a grade and significant bits, also where these carry
into the next grade. -/
theorem units_of_bits {m : Magnitude} {g r : Nat} (hbits : m.bits = g * leadingBit + r)
    (hr : r ≤ 2 ^ 53) (hg : g = 0 ∨ 2 ^ 52 ≤ r) : m.units = r * 2 ^ g := by
  rw [units, Nat.shiftLeft_eq]
  rcases Nat.lt_or_eq_of_le hr with hr | rfl
  · have hgrade : m.grade = g := by
      unfold grade leadingBit at *
      omega
    have hsignificand : m.significand = r := by
      rw [significand, hgrade]
      omega
    rw [hgrade, hsignificand]
  · have hgrade : m.grade = g + 1 := by
      unfold grade leadingBit at *
      omega
    have hsignificand : m.significand = 2 ^ 52 := by
      rw [significand, hgrade]
      unfold leadingBit at *
      omega
    rw [hgrade, hsignificand, Nat.pow_succ']
    ring

/-- No number lies between two neighbours on a grid that has 53 bits. -/
theorem units_gap (m : Magnitude) {g f : Nat} (hg : g = 0 ∨ 2 ^ 52 ≤ f) :
    m.units ≤ f * 2 ^ g ∨ (f + 1) * 2 ^ g ≤ m.units := by
  rw [units, Nat.shiftLeft_eq]
  by_cases hgrade : g ≤ m.grade
  · -- The number is on the grid itself.
    obtain ⟨k, hk⟩ := Nat.exists_eq_add_of_le hgrade
    have hunits : m.significand * 2 ^ m.grade = m.significand * 2 ^ k * 2 ^ g := by
      rw [hk, Nat.pow_add]
      ring
    rw [hunits]
    rcases Nat.lt_or_ge f (m.significand * 2 ^ k) with h | h
    · exact .inr (Nat.mul_le_mul_right _ h)
    · exact .inl (Nat.mul_le_mul_right _ h)
  · have hf : 2 ^ 52 ≤ f := hg.resolve_left (by omega)
    left
    calc m.significand * 2 ^ m.grade
        ≤ 2 ^ 53 * 2 ^ (g - 1) :=
          Nat.mul_le_mul m.significand_lt.le (Nat.pow_le_pow_right (by decide) (by omega))
      _ = 2 ^ 52 * 2 ^ g := by
          rw [← Nat.pow_add, ← Nat.pow_add]
          congr 1
          omega
      _ ≤ f * 2 ^ g := Nat.mul_le_mul_right _ hf

theorem units_injective : Function.Injective units := by
  intro m m' h
  obtain ⟨unit, hpos, hshift⟩ : ∃ unit, 0 < unit ∧ ∀ n : Nat, n <<< 1074 = n * unit :=
    ⟨_, Nat.two_pow_pos _, fun n => Nat.shiftLeft_eq n 1074⟩
  have hread (m : Magnitude) : ofRatio? m.units unit = some m :=
    ofRatio?_eq_some hpos (hshift m.units)
  exact Option.some.inj ((hread m).symm.trans (h ▸ hread m'))

/-! ## Values -/

/-- The value of a number. -/
def value (m : Magnitude) : ℚ := m.units / 2 ^ 1074

/-- None is closer to a value than the number, and if another one is as close, the number is the
even one. -/
structure Nearest (m : Magnitude) (x : ℚ) : Prop where
  closest : ∀ m' : Magnitude, |x - m.value| ≤ |x - m'.value|
  even : ∀ m' : Magnitude, m' ≠ m → |x - m'.value| = |x - m.value| → m.bits % 2 = 0

theorem value_nonneg (m : Magnitude) : 0 ≤ m.value :=
  div_nonneg (Nat.cast_nonneg _) (pow_nonneg (by norm_num) _)

theorem cast_shiftLeft (n k : Nat) : ((n <<< k : Nat) : ℚ) = n * 2 ^ k := by
  rw [Nat.shiftLeft_eq]
  push_cast
  rfl

/-- All numbers are finite. -/
theorem value_lt (m : Magnitude) : m.value < 2 ^ 1024 := by
  have hlt : m.significand < 2 ^ 53 := m.significand_lt
  have hsignificand : (m.significand : ℚ) < 2 ^ 53 := by exact_mod_cast hlt
  rw [value, div_lt_iff₀ (pow_pos (by norm_num) _), units, cast_shiftLeft, ← pow_add,
    show 1024 + 1074 = 53 + 2045 from rfl, pow_add]
  exact mul_lt_mul hsignificand (pow_le_pow_right₀ (by norm_num) m.grade_le)
    (pow_pos (by norm_num) _) (pow_nonneg (by norm_num) _)

section Quotient

variable {num den : Nat} (hden : 0 < den)
include hden

/-- The distance of a number from a quotient, in the grid of the quotient. -/
theorem abs_sub_value (m : Magnitude) (g : Nat) :
    |(num / den : ℚ) - m.value| =
      |((num <<< 1074 : Nat) / (den <<< g : Nat) : ℚ) - m.units / 2 ^ g| * (2 ^ g / 2 ^ 1074) := by
  have hpos : (0 : ℚ) < den := by exact_mod_cast hden
  have hg : (0 : ℚ) < 2 ^ g := pow_pos (by norm_num) g
  have hunit : (0 : ℚ) < 2 ^ 1074 := pow_pos (by norm_num) 1074
  rw [value, cast_shiftLeft, cast_shiftLeft]
  generalize (2 : ℚ) ^ 1074 = unit at *
  generalize (2 : ℚ) ^ g = scale at *
  rw [← abs_of_pos (div_pos hg hunit), ← abs_mul]
  congr 1
  field_simp

/-- A quotient is rounded to the nearest number. -/
theorem nearest_of_ofRatio? {m : Magnitude} (h : ofRatio? num den = some m) :
    m.Nearest (num / den) := by
  rw [ofRatio?_eq] at h
  have hbits := bits_of_ofBits? h
  have hscaled (m' : Magnitude) : |(num / den : ℚ) - m'.value| = _ :=
    m'.abs_sub_value hden (gradeOf num den)
  obtain ⟨hlt, hnormal⟩ := kept_bounds num den
  have hround := rounded_eq_or num den
  have hunits : m.units = rounded num den * 2 ^ gradeOf num den :=
    units_of_bits hbits (by omega) (by omega)
  have hscale : (0 : ℚ) < 2 ^ gradeOf num den := pow_pos (by norm_num) _
  have hfactor : (0 : ℚ) < 2 ^ gradeOf num den / 2 ^ 1074 :=
    div_pos hscale (pow_pos (by norm_num) _)
  have hgrid := shiftLeft_pos hden (gradeOf num den)
  have hself : (m.units : ℚ) / 2 ^ gradeOf num den = rounded num den := by
    rw [hunits, div_eq_iff hscale.ne']
    push_cast
    rfl
  have hgap (m' : Magnitude) : (m'.units : ℚ) / 2 ^ gradeOf num den ≤ kept num den ∨
      (kept num den : ℚ) + 1 ≤ m'.units / 2 ^ gradeOf num den := by
    rw [div_le_iff₀ hscale, le_div_iff₀ hscale]
    exact_mod_cast m'.units_gap hnormal
  have hclosest (m' : Magnitude) := roundHalfEven_closest hgrid (hgap m')
  refine ⟨fun m' => ?_, fun m' hne heq => ?_⟩
  · rw [hscaled, hscaled, hself]
    exact mul_le_mul_of_nonneg_right (hclosest m').1 hfactor.le
  · rw [hscaled, hscaled, hself] at heq
    have heven : rounded num den % 2 = 0 := by
      refine (hclosest m').2 (mul_right_cancel₀ hfactor.ne' heq) fun hsame => hne ?_
      have hunits' := (div_left_inj' hscale.ne').mp (hsame.trans hself.symm)
      exact units_injective (by exact_mod_cast hunits')
    unfold leadingBit at hbits
    omega

/-- There is a nearest number just if the quotient, in units, is less than 54 ones and 2044 zeros
in binary digits. -/
theorem isSome_ofRatio?_iff_scaled :
    (ofRatio? num den).isSome ↔ num <<< 1074 < (2 ^ 54 - 1) * (den <<< 2044) := by
  have hsome (bits : Nat) : (ofBits? bits).isSome ↔ bits < 0x7FF0000000000000 := by
    unfold ofBits?
    split <;> simp [*]
  obtain ⟨hlt, hnormal⟩ := kept_bounds num den
  have hround := rounded_eq_or num den
  have hgrid := shiftLeft_pos hden (gradeOf num den)
  have hlast : den <<< 2045 = 2 * (den <<< 2044) := Nat.shiftLeft_succ den 2044
  have habove : den <<< 2046 = 2 * (den <<< 2045) := Nat.shiftLeft_succ den 2045
  have hfloor : kept num den * (den <<< gradeOf num den) ≤ num <<< 1074 := Nat.div_mul_le_self _ _
  have hceil : num <<< 1074 < (kept num den + 1) * (den <<< gradeOf num den) :=
    Nat.lt_mul_of_div_lt (Nat.lt_succ_self _) hgrid
  have hbelow : rounded num den < 2 ^ 53 ↔ _ := roundHalfEven_lt_iff hgrid (by decide)
  have hpos := shiftLeft_pos hden 2044
  rw [ofRatio?_eq, hsome]
  unfold leadingBit
  rcases Nat.lt_trichotomy (gradeOf num den) 2045 with hg | hg | hg
  · -- Whatever is kept, the pattern is below that of infinity.
    have hle : den <<< gradeOf num den ≤ den <<< 2044 :=
      shiftLeft_mono (Nat.le_refl den) (Nat.le_of_lt_succ hg)
    have hmul : (kept num den + 1) * _ ≤ _ := Nat.mul_le_mul hlt hle
    generalize den <<< 2044 = top at *
    generalize num <<< 1074 = scaled at *
    omega
  · -- The largest grade has numbers as long as rounding does not carry out of it.
    rw [hg] at hbelow ⊢
    generalize den <<< 2044 = top at *
    generalize num <<< 1074 = scaled at *
    rw [hlast] at hbelow
    omega
  · have hle : den <<< 2046 ≤ den <<< gradeOf num den :=
      shiftLeft_mono (Nat.le_refl den) (Nat.succ_le_of_lt hg)
    have hmul := Nat.mul_le_mul (hnormal.resolve_left (by omega)) hle
    rw [habove, hlast] at hmul
    generalize den <<< 2044 = top at *
    generalize num <<< 1074 = scaled at *
    omega

/-- A quotient has a nearest number just if it is below the half-way point between the largest
number and `2 ^ 1024`. -/
theorem isSome_ofRatio?_iff :
    (ofRatio? num den).isSome ↔ (num / den : ℚ) < 2 ^ 1024 - 2 ^ 970 := by
  have hpos : (0 : ℚ) < den := by exact_mod_cast hden
  have hunit : (0 : ℚ) < 2 ^ 1074 := pow_pos (by norm_num) _
  have hbound : (2 : ℚ) ^ 1024 - 2 ^ 970 = (2 ^ 54 - 1) * 2 ^ 970 := by
    rw [sub_mul, one_mul, ← pow_add]
  have hscaled : (2 : ℚ) ^ 2044 = 2 ^ 970 * 2 ^ 1074 := by
    rw [← pow_add]
  have hcast (scaled top : Nat) :
      scaled < (2 ^ 54 - 1) * top ↔ (scaled : ℚ) < (2 ^ 54 - 1) * top := by
    norm_num
    exact_mod_cast Iff.rfl
  calc (ofRatio? num den).isSome
      ↔ (num : ℚ) * 2 ^ 1074 < (2 ^ 54 - 1) * 2 ^ 970 * den * 2 ^ 1074 := by
        rw [isSome_ofRatio?_iff_scaled hden, hcast, cast_shiftLeft, cast_shiftLeft, hscaled,
          ← mul_assoc, ← mul_assoc, mul_right_comm _ (den : ℚ)]
    _ ↔ (num / den : ℚ) < 2 ^ 1024 - 2 ^ 970 := by
        rw [mul_lt_mul_iff_left₀ hunit, hbound, div_lt_iff₀ hpos]

end Quotient

end Magnitude

end ImpToC.Number
