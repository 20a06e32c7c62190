import Mathlib.Data.List.TakeWhile
import ImpToC.Proofs.Number.Digits
import ImpToC.Proofs.Number.Rounding

/-!
# Texts of floating-point numbers

A decimal may be written around a point or with an exponent. Either way the text has the value
of the decimal, so that reading it gives the number that the decimal is nearest to. Therefore
no two numbers have the same text.
-/

namespace ImpToC.Number

/-! ## Decimals of one value -/

/-- Zeros may stand in a coefficient or in the exponent. -/
theorem Decimal.nearest?_shift (c k : Nat) (e : Int) :
    (⟨c * tenTo k, e⟩ : Decimal).nearest? = (⟨c, e + k⟩ : Decimal).nearest? := by
  refine Magnitude.ofRatio?_congr (tenTo_pos _) (tenTo_pos _) ?_
  have hpower : k + e.toNat + (-(e + k)).toNat = (e + k).toNat + (-e).toNat := by omega
  calc c * tenTo k * tenTo e.toNat * tenTo (-(e + k)).toNat
      = c * tenTo (k + e.toNat + (-(e + k)).toNat) := by
        simp only [tenTo_add, Nat.mul_assoc]
    _ = c * tenTo (e + k).toNat * tenTo (-e).toNat := by
        rw [hpower, tenTo_add, Nat.mul_assoc]

/-- The decimal with some digits, the first of which has the given exponent. -/
def Decimal.ofLeading (ds : List Char) (leading : Int) : Decimal :=
  ⟨ofDigits ds, leading + 1 - ds.length⟩

/-- A decimal has the value of its significant digits. -/
theorem Decimal.nearest?_significantDigits (d : Decimal) :
    (ofLeading (significantDigits d.coefficient)
      (d.exponent + (digits d.coefficient).length - 1)).nearest? = d.nearest? := by
  obtain ⟨k, hk⟩ := exists_zeros_of_digits d.coefficient
  have hcoefficient := ofDigits_digits d.coefficient
  have hlength := congrArg List.length hk
  rw [hk, ofDigits_append_zeros] at hcoefficient
  rw [List.length_append, List.length_replicate] at hlength
  calc (ofLeading (significantDigits d.coefficient)
        (d.exponent + (digits d.coefficient).length - 1)).nearest?
      = (⟨ofDigits (significantDigits d.coefficient), d.exponent + k⟩ : Decimal).nearest? := by
        rw [ofLeading, hlength]
        congr 2
        omega
    _ = d.nearest? := by rw [← nearest?_shift, hcoefficient]

/-! ## Digits around a point -/

/-- Digits are none of the marks in a number. -/
theorem ne_of_isDigit {c mark : Char} (hc : isDigit c = true) (hmark : isDigit mark = false) :
    c ≠ mark := by
  rintro rfl
  exact Bool.noConfusion (hc.symm.trans hmark)

section Positional

variable {ds : List Char} (hds : ∀ c ∈ ds, isDigit c = true)
include hds

theorem ofPlain_digits : Decimal.ofPlain ds = ⟨ofDigits ds, 0⟩ := by
  have hall : ∀ c ∈ ds, decide (c ≠ '.') = true :=
    fun c hc => decide_eq_true (ne_of_isDigit (hds c hc) rfl)
  rw [Decimal.ofPlain, List.takeWhile_eq_self_iff.mpr hall, List.dropWhile_eq_nil_iff.mpr hall]
  simp [Decimal.ofParts]

theorem ofPlain_point (fraction : List Char) :
    Decimal.ofPlain (ds ++ '.' :: fraction) = ⟨ofDigits (ds ++ fraction), -fraction.length⟩ := by
  have hall : ∀ c ∈ ds, decide (c ≠ '.') = true :=
    fun c hc => decide_eq_true (ne_of_isDigit (hds c hc) rfl)
  rw [Decimal.ofPlain, List.takeWhile_append_of_pos hall, List.dropWhile_append_of_pos hall]
  simp [Decimal.ofParts]

/-- Digits around a point have the value of the digits at their exponent. -/
theorem nearest?_positional (leading : Int) :
    (Decimal.ofPlain (positional ds leading)).nearest? =
      (Decimal.ofLeading ds leading).nearest? := by
  unfold positional
  dsimp only
  split
  next hneg =>
    have hzero : ∀ c ∈ ['0'], isDigit c = true := List.all_eq_true.mp rfl
    have htext : ['0', '.'] ++ List.replicate (-leading - 1).toNat '0' ++ ds =
        ['0'] ++ '.' :: (List.replicate (-leading - 1).toNat '0' ++ ds) := rfl
    have hvalue : ofDigits (['0'] ++ (List.replicate (-leading - 1).toNat '0' ++ ds)) =
        ofDigits ds :=
      (ofDigits_zeros_append 1 _).trans (ofDigits_zeros_append _ ds)
    rw [htext, ofPlain_point hzero, hvalue, Decimal.ofLeading, List.length_append,
      List.length_replicate]
    congr 2
    omega
  next hnonneg =>
    have hwhole : ∀ c ∈ ds.take (leading.toNat + 1), isDigit c = true :=
      fun c hc => hds c (List.mem_of_mem_take hc)
    rw [List.append_assoc, List.singleton_append]
    split
    next hempty =>
      -- All digits stand before the point, with zeros behind them.
      have hlength : ds.length ≤ leading.toNat + 1 :=
        List.drop_eq_nil_iff.mp (List.isEmpty_iff.mp hempty)
      have hzeros : ∀ c ∈ List.replicate (leading.toNat + 1 - ds.length) '0', isDigit c = true :=
        fun c hc => List.eq_of_mem_replicate hc ▸ rfl
      rw [List.take_of_length_le hlength, ofPlain_point (List.forall_mem_append.mpr ⟨hds, hzeros⟩),
        List.append_assoc, ← List.replicate_succ', ofDigits_append_zeros, Decimal.nearest?_shift,
        Decimal.ofLeading, List.length_singleton]
      congr 2
      omega
    next hrest =>
      have hlength : leading.toNat + 1 < ds.length := by
        apply Nat.not_le.mp
        exact fun hle => hrest (List.isEmpty_iff.mpr (List.drop_eq_nil_iff.mpr hle))
      rw [Nat.sub_eq_zero_of_le hlength.le, List.replicate_zero, List.append_nil,
        ofPlain_point hwhole, List.take_append_drop, Decimal.ofLeading, List.length_drop]
      congr 2
      omega

/-- A text with digits on both sides of a point. -/
def IsPlain (text : List Char) : Prop :=
  ∃ whole fraction, text = whole ++ '.' :: fraction ∧ (whole ≠ [] ∧ fraction ≠ []) ∧
    ∀ c ∈ whole ++ fraction, isDigit c = true

theorem isPlain_positional (hne : ds ≠ []) (leading : Int) : IsPlain (positional ds leading) := by
  have hzeros (n : Nat) : ∀ c ∈ List.replicate n '0', isDigit c = true :=
    fun c hc => List.eq_of_mem_replicate hc ▸ rfl
  have htake : ∀ c ∈ ds.take (leading.toNat + 1), isDigit c = true :=
    fun c hc => hds c (List.mem_of_mem_take hc)
  have hdrop : ∀ c ∈ ds.drop (leading.toNat + 1), isDigit c = true :=
    fun c hc => hds c (List.mem_of_mem_drop hc)
  unfold positional
  dsimp only
  split
  next =>
    refine ⟨['0'], List.replicate (-leading - 1).toNat '0' ++ ds, rfl, ⟨nofun, ?_⟩, ?_⟩
    · exact List.append_ne_nil_of_right_ne_nil _ hne
    · exact List.forall_mem_append.mpr
        ⟨hzeros 1, List.forall_mem_append.mpr ⟨hzeros _, hds⟩⟩
  next =>
    refine ⟨_, _, by rw [List.append_assoc, List.singleton_append], ⟨?_, ?_⟩, ?_⟩
    · apply List.append_ne_nil_of_left_ne_nil
      simpa using hne
    · split
      next => nofun
      next hempty => exact fun h => hempty (List.isEmpty_iff.mpr h)
    · refine List.forall_mem_append.mpr ⟨List.forall_mem_append.mpr ⟨htake, hzeros _⟩, ?_⟩
      split
      next => exact hzeros 1
      next => exact hdrop

end Positional

/-! ## Digits with an exponent -/

theorem ofScientific_plain {body : List Char} (hbody : ∀ c ∈ body, ¬(c = 'e' ∨ c = 'E')) :
    Decimal.ofScientific body = Decimal.ofPlain body := by
  have hall : ∀ c ∈ body, (!decide (c = 'e' ∨ c = 'E')) = true :=
    fun c hc => by simpa using hbody c hc
  unfold Decimal.ofScientific
  dsimp only
  rw [List.takeWhile_eq_self_iff.mpr hall, List.dropWhile_eq_nil_iff.mpr hall]
  simp [splitSign, ofDigits]

theorem ofScientific_mark {body : List Char} (hbody : ∀ c ∈ body, ¬(c = 'e' ∨ c = 'E'))
    (below : Bool) {power : List Char} (hpower : ofDigits power ≤ 400) :
    Decimal.ofScientific (body ++ 'e' :: (if below then '-' else '+') :: power) =
      ⟨(Decimal.ofPlain body).coefficient, (Decimal.ofPlain body).exponent +
        (if below then -1 else 1) * (ofDigits power : Int)⟩ := by
  have hall : ∀ c ∈ body, (!decide (c = 'e' ∨ c = 'E')) = true :=
    fun c hc => by simpa using hbody c hc
  have hmin : min (ofDigits power) (400 + body.length) = ofDigits power := by omega
  unfold Decimal.ofScientific
  dsimp only
  rw [List.takeWhile_append_of_pos hall, List.dropWhile_append_of_pos hall]
  cases below with
  | false => simp [splitSign, hmin]
  | true => simp [splitSign, hmin]

section Scientific

variable {ds : List Char} (hds : ∀ c ∈ ds, isDigit c = true) (hne : ds ≠ [])
include hds hne

/-- A scientific form has the digits, with a point behind the first one if there are others, and
then the power. -/
theorem exists_body_of_scientific (leading : Int) :
    ∃ body power, scientific ds leading =
        body ++ 'e' :: (if decide (leading < 0) then '-' else '+') :: power ∧
      (∀ c ∈ body, isDigit c = true ∨ c = '.') ∧
      Decimal.ofPlain body = ⟨ofDigits ds, 1 - ds.length⟩ ∧
      (∀ c ∈ power, isDigit c = true) ∧ ofDigits power = leading.natAbs := by
  have hzeros (n : Nat) : ∀ c ∈ List.replicate n '0', isDigit c = true :=
    fun c hc => List.eq_of_mem_replicate hc ▸ rfl
  have hpower : ofDigits (List.replicate (2 - (digits leading.natAbs).length) '0' ++
      digits leading.natAbs) = leading.natAbs := by
    rw [ofDigits_zeros_append, ofDigits_digits]
  have hdigits : ∀ c ∈ List.replicate (2 - (digits leading.natAbs).length) '0' ++
      digits leading.natAbs, isDigit c = true :=
    List.forall_mem_append.mpr ⟨hzeros _, fun _ => isDigit_of_mem_digits⟩
  obtain ⟨d, rest, rfl⟩ := List.exists_cons_of_ne_nil hne
  have hd : ∀ c ∈ [d], isDigit c = true := by simpa using hds d List.mem_cons_self
  cases rest with
  | nil =>
      refine ⟨[d], _, ?_, fun c hc => .inl (hd c hc), ofPlain_digits hd, hdigits, hpower⟩
      simp [scientific]
  | cons d' rest =>
      refine ⟨[d] ++ '.' :: d' :: rest, _, ?_, ?_, ?_, hdigits, hpower⟩
      · simp [scientific]
      · intro c hc
        rcases List.mem_append.mp hc with hc | hc
        · exact .inl (hd c hc)
        · rcases List.mem_cons.mp hc with rfl | hc
          · exact .inr rfl
          · exact .inl (hds c (List.mem_cons_of_mem _ hc))
      · rw [ofPlain_point hd]
        simp only [List.length_cons]
        congr 1

theorem ofScientific_scientific {leading : Int} (hleading : leading.natAbs ≤ 400) :
    Decimal.ofScientific (scientific ds leading) = Decimal.ofLeading ds leading := by
  obtain ⟨body, power, htext, hbody, hplain, -, hpower⟩ :=
    exists_body_of_scientific hds hne leading
  have hmarks : ∀ c ∈ body, ¬(c = 'e' ∨ c = 'E') := by
    rintro c hc (rfl | rfl)
    · rcases hbody _ hc with h | h <;> cases h
    · rcases hbody _ hc with h | h <;> cases h
  rw [htext, ofScientific_mark hmarks _ (hpower ▸ hleading), hplain, hpower, Decimal.ofLeading]
  simp only [decide_eq_true_eq]
  congr 1
  split <;> omega

end Scientific

/-! ## Written decimals -/

theorem Decimal.nearest?_of_zero {d d' : Decimal} (h : d.coefficient = 0)
    (h' : d'.coefficient = 0) : d.nearest? = d'.nearest? := by
  refine Magnitude.ofRatio?_congr (tenTo_pos _) (tenTo_pos _) ?_
  rw [num, num, h, h', Nat.zero_mul, Nat.zero_mul, Nat.zero_mul, Nat.zero_mul]

/-- The first digit of a decimal, unless it is rounded to zero, has no large exponent. -/
theorem Decimal.natAbs_leading_le {d : Decimal} {m : Magnitude} (h : d.nearest? = some m)
    (hd : d.coefficient ≠ 0) (hm : m.bits ≠ 0) :
    (d.exponent + (digits d.coefficient).length - 1).natAbs ≤ 400 := by
  obtain ⟨c, e⟩ := d
  have hden := tenTo_pos (-e).toNat
  have hnum := Magnitude.lt_of_ofRatio? hden h
  have hnum' := Magnitude.lt_of_ofRatio?_ne_zero hden h hm
  generalize 400 = bound at hnum hnum' ⊢
  have hlength : 0 < (digits c).length := List.length_pos_iff.mpr (digits_ne_nil c)
  have habove : tenTo ((digits c).length - 1 + e.toNat) < tenTo (bound + (-e).toNat) := by
    rw [tenTo_add, tenTo_add]
    have hlow := tenTo_le_of_lt_length_digits hd (Nat.sub_lt hlength Nat.one_pos)
    exact Nat.lt_of_le_of_lt (Nat.mul_le_mul_right _ hlow) hnum
  have hbelow : tenTo (-e).toNat < tenTo (bound + ((digits c).length + e.toNat)) := by
    rw [tenTo_add, tenTo_add]
    have hhigh := Nat.mul_le_mul_right (tenTo e.toNat) (lt_tenTo_length_digits c).le
    exact Nat.lt_of_lt_of_le hnum' (Nat.mul_le_mul_left _ hhigh)
  have habove' := tenTo_lt_iff.mp habove
  have hbelow' := tenTo_lt_iff.mp hbelow
  dsimp only
  omega

namespace Magnitude

/-- How the text of a number is made: it is plain or in scientific form, and what is read back
is nearest to the number. -/
theorem text_cases (m : Magnitude) :
    (IsPlain m.text ∧ (Decimal.ofPlain m.text).nearest? = some m) ∨
      ∃ ds leading, m.text = scientific ds leading ∧ (∀ c ∈ ds, isDigit c = true) ∧ ds ≠ [] ∧
        leading.natAbs ≤ 400 ∧ (Decimal.ofLeading ds leading).nearest? = some m := by
  have hnearest := m.nearest?_shortest
  unfold text Layout.write
  split
  next hzero =>
    refine .inl ⟨⟨['0'], ['0'], rfl, ⟨nofun, nofun⟩, List.all_eq_true.mp rfl⟩, ?_⟩
    rw [← hnearest]
    exact Decimal.nearest?_of_zero rfl hzero
  next hne =>
    have hds : ∀ c ∈ significantDigits m.shortest.coefficient, isDigit c = true :=
      fun _ => isDigit_of_mem_significantDigits
    have hvalue := m.shortest.nearest?_significantDigits.trans hnearest
    -- Only zero is written with the coefficient zero, so the exponents are bounded.
    have hbits : m.bits ≠ 0 := by
      intro h
      rw [shortest, if_pos h] at hne
      exact hne rfl
    have hleading := Decimal.natAbs_leading_le hnearest hne hbits
    dsimp only
    split
    next =>
      exact .inl ⟨isPlain_positional hds (significantDigits_ne_nil hne) _,
        (nearest?_positional hds _).trans hvalue⟩
    next =>
      exact .inr ⟨_, _, rfl, hds, significantDigits_ne_nil hne, hleading, hvalue⟩

/-- The characters of a number. -/
theorem mem_text {m : Magnitude} {c : Char} (h : c ∈ m.text) :
    isDigit c = true ∨ c ∈ ['.', 'e', '+', '-'] := by
  rcases m.text_cases with ⟨⟨whole, fraction, htext, -, hdigits⟩, -⟩ |
    ⟨ds, leading, htext, hds, hne, -⟩
  · rw [htext, List.mem_append, List.mem_cons] at h
    rcases h with h | rfl | h
    · exact .inl (hdigits c (List.mem_append_left _ h))
    · exact .inr (by decide)
    · exact .inl (hdigits c (List.mem_append_right _ h))
  · obtain ⟨body, power, hform, hbody, -, hpower, -⟩ := exists_body_of_scientific hds hne leading
    rw [htext, hform, List.mem_append, List.mem_cons, List.mem_cons] at h
    rcases h with h | rfl | rfl | h
    · rcases hbody c h with hc | rfl
      · exact .inl hc
      · exact .inr (by decide)
    · exact .inr (by decide)
    · exact .inr (by split <;> decide)
    · exact .inl (hpower c h)

theorem exists_digit_of_text (m : Magnitude) : ∃ c rest, m.text = c :: rest ∧ isDigit c = true := by
  rcases m.text_cases with ⟨⟨whole, fraction, htext, ⟨hne, -⟩, hdigits⟩, -⟩ |
    ⟨ds, leading, htext, hds, hne, -⟩
  · obtain ⟨c, rest, rfl⟩ := List.exists_cons_of_ne_nil hne
    exact ⟨c, _, htext, hdigits c List.mem_cons_self⟩
  · obtain ⟨c, rest, rfl⟩ := List.exists_cons_of_ne_nil hne
    exact ⟨c, _, htext, hds c List.mem_cons_self⟩

/-- A text of a number is not one of digits only. -/
theorem exists_mark_of_text (m : Magnitude) : ∃ c ∈ m.text, isDigit c = false := by
  rcases m.text_cases with ⟨⟨whole, fraction, htext, -⟩, -⟩ | ⟨ds, leading, htext, hds, hne, -⟩
  · exact ⟨'.', by simp [htext], rfl⟩
  · obtain ⟨body, power, hform, -⟩ := exists_body_of_scientific hds hne leading
    exact ⟨'e', by simp [htext, hform], rfl⟩

/-- A text with no exponent has digits on both sides of a point. -/
theorem isPlain_text {m : Magnitude} (h : 'e' ∉ m.text) :
    IsPlain m.text ∧ (Decimal.ofPlain m.text).nearest? = some m := by
  rcases m.text_cases with hplain | ⟨ds, leading, htext, hds, hne, -⟩
  · exact hplain
  · obtain ⟨body, power, hform, -⟩ := exists_body_of_scientific hds hne leading
    exact absurd (by simp [htext, hform]) h

theorem nearest?_ofScientific_text (m : Magnitude) :
    (Decimal.ofScientific m.text).nearest? = some m := by
  rcases m.text_cases with ⟨⟨whole, fraction, htext, -, hdigits⟩, hvalue⟩ |
    ⟨ds, leading, htext, hds, hne, hleading, hvalue⟩
  · have hmarks : ∀ c ∈ m.text, ¬(c = 'e' ∨ c = 'E') := by
      rw [htext, List.forall_mem_append, List.forall_mem_cons]
      refine ⟨fun c hc => ?_, by decide, fun c hc => ?_⟩
      · have hdigit := hdigits c (List.mem_append_left _ hc)
        exact not_or.mpr ⟨ne_of_isDigit hdigit rfl, ne_of_isDigit hdigit rfl⟩
      · have hdigit := hdigits c (List.mem_append_right _ hc)
        exact not_or.mpr ⟨ne_of_isDigit hdigit rfl, ne_of_isDigit hdigit rfl⟩
    rw [ofScientific_plain hmarks, hvalue]
  · rw [htext, ofScientific_scientific hds hne hleading, hvalue]

end Magnitude

theorem toLower_of_isDigit {c : Char} (h : isDigit c = true) : c.toLower = c := by
  refine dif_neg fun hupper => ?_
  have hle : c ≤ '9' := of_decide_eq_true (Bool.and_eq_true_iff.mp h).2
  exact absurd (UInt32.le_trans hupper.1 hle) (by decide)

/-- The text of a number reads back to the number. -/
theorem Binary64.ofText_text (m : Magnitude) : Binary64.ofText m.text = .finite false m := by
  have hnearest := m.nearest?_ofScientific_text
  obtain ⟨c, rest, htext, hc⟩ := m.exists_digit_of_text
  rw [htext] at hnearest ⊢
  have hsign : splitSign (c :: rest) = (false, c :: rest) := by
    unfold splitSign
    split
    next h => cases h; cases hc
    next h => cases h; cases hc
    next => rfl
  have hword {letter : Char} (hletter : isDigit letter = false) (cs cs' : List Char) :
      c :: cs ≠ letter :: cs' :=
    fun h => ne_of_isDigit hc hletter (List.cons.inj h).1
  rw [Binary64.ofText, hsign]
  dsimp only
  rw [List.map_cons, toLower_of_isDigit hc, if_neg (hword rfl _ _), List.take_succ_cons,
    if_neg (hword rfl _ _), hnearest]

theorem Magnitude.text_injective : Function.Injective Magnitude.text := by
  intro m m' h
  have hread := (Binary64.ofText_text m).symm.trans (h ▸ Binary64.ofText_text m')
  cases hread
  rfl

end ImpToC.Number
