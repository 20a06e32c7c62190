import ImpToC.Proofs.Number.Nearest
import ImpToC.Proofs.Number.Texts
import ImpToC.Proofs.Parsing.Descents

/-!
# Float literals

A float literal is read as the floating-point number nearest to its value. It is turned down if
no digit stands behind its point, or if its value is too large for a finite number.
-/

namespace ImpToC.Literal

open Number

variable {whole fraction : List Char}

/-- The last character of digits around a point is the point just if no digit is behind it. -/
theorem getLast?_point (hfraction : ∀ c ∈ fraction, isDigit c = true) :
    (whole ++ '.' :: fraction).getLast? = some '.' ↔ fraction = [] := by
  constructor
  · intro h
    by_contra hne
    rw [List.getLast?_append_of_ne_nil _ (List.cons_ne_nil _ _), List.getLast?_cons_of_ne_nil hne]
      at h
    exact ne_of_isDigit (hfraction '.' (List.mem_of_getLast? h)) rfl rfl
  · rintro rfl
    exact List.getLast?_append_of_ne_nil _ (List.cons_ne_nil _ _)

/-- The number nearest to digits around a point. -/
theorem nearest?_point (hwhole : ∀ c ∈ whole, isDigit c = true) :
    (Decimal.ofPlain (whole ++ '.' :: fraction)).nearest? =
      Magnitude.ofRatio? (ofDigits (whole ++ fraction)) (tenTo fraction.length) := by
  have hnum : (-(fraction.length : Int)).toNat = 0 := by omega
  have hden : (- -(fraction.length : Int)).toNat = fraction.length := by omega
  rw [ofPlain_point hwhole, Decimal.nearest?, Decimal.num, Decimal.den, hnum, hden]
  exact congrArg (Magnitude.ofRatio? · _) (Nat.mul_one _)

/-- The value of digits around a point. -/
theorem ofDigits_div_tenTo (whole fraction : List Char) :
    (ofDigits (whole ++ fraction) / tenTo fraction.length : ℚ) =
      ofDigits whole + ofDigits fraction / 10 ^ fraction.length := by
  have htenTo : (tenTo fraction.length : ℚ) = 10 ^ fraction.length := by
    rw [tenTo, Nat.pow_eq]
    push_cast
    rfl
  have hpos : (10 : ℚ) ^ fraction.length ≠ 0 := pow_ne_zero _ (by norm_num)
  rw [ofDigits_append, Nat.cast_add, Nat.cast_mul, htenTo, add_div, mul_div_cancel_right₀ _ hpos]

/-- The value of a literal with digits around a point. -/
def pointValue (whole fraction : List Char) : ℚ :=
  ofDigits whole + ofDigits fraction / 10 ^ fraction.length

section Point

variable (hwhole : ∀ c ∈ whole, isDigit c = true) (hfraction : ∀ c ∈ fraction, isDigit c = true)

theorem float?_point : float? (.ofParts whole fraction hwhole hfraction) =
    if fraction = [] then none
    else Magnitude.ofRatio? (ofDigits (whole ++ fraction)) (tenTo fraction.length) := by
  simp only [float?, FloatText.ofParts_text, String.toList_ofList, getLast?_point hfraction,
    nearest?_point hwhole]

/-- What a literal is read as is the number nearest to its value. -/
theorem nearest_of_float? {m : Magnitude}
    (h : float? (.ofParts whole fraction hwhole hfraction) = some m) :
    m.Nearest (pointValue whole fraction) := by
  rw [float?_point hwhole hfraction] at h
  split at h
  next => cases h
  next =>
    rw [pointValue, ← ofDigits_div_tenTo]
    exact Magnitude.nearest_of_ofRatio? (tenTo_pos _) h

/-- A literal is turned down if no digit is behind its point or its value is too large. -/
theorem float?_eq_none_iff : float? (.ofParts whole fraction hwhole hfraction) = none ↔
    fraction = [] ∨ 2 ^ 1024 - 2 ^ 970 ≤ pointValue whole fraction := by
  have hsome : (Magnitude.ofRatio? (ofDigits (whole ++ fraction)) _).isSome ↔ _ :=
    Magnitude.isSome_ofRatio?_iff (tenTo_pos fraction.length)
  rw [ofDigits_div_tenTo, ← not_iff_not, Option.not_isSome_iff_eq_none, not_lt] at hsome
  rw [float?_point hwhole hfraction, pointValue, ← hsome]
  by_cases hnil : fraction = []
  · rw [if_pos hnil]
    exact iff_of_true rfl (.inl hnil)
  · rw [if_neg hnil, or_iff_right hnil]

/-- A float literal of any length is turned down, with its text at its place, just if no digit
stands behind its point or its value is not below the half-way point between the largest number and
`2 ^ 1024`. Otherwise the parser goes on with the number nearest to the value, the even one of two,
which is finite and not negative. -/
theorem factor_nearest [Host] (location : Location) {room : Nat} {d : Parser.Reader}
    (hnext : d.next? = some ⟨.float (.ofParts whole fraction hwhole hfraction), location⟩)
    (hroom : 7 ≤ room) :
    let text := String.ofList (whole ++ '.' :: fraction)
    let value : ℚ := ofDigits whole + ofDigits fraction / 10 ^ fraction.length
    (Parser.factor room d = .error (.fault ((Cause.invalidFloat text).fault location)) d.passed ↔
        fraction = [] ∨ 2 ^ 1024 - 2 ^ 970 ≤ value) ∧
      (¬(fraction = [] ∨ 2 ^ 1024 - 2 ^ 970 ≤ value) →
        ∃ m : Magnitude, m.Nearest value ∧ 0 ≤ m.value ∧ m.value < 2 ^ 1024 ∧
          Parser.factor room d = .ok (.float ⟨d.nextId, location⟩ m) d.passed) := by
  intro text value
  have hnone : float? (.ofParts whole fraction hwhole hfraction) = none ↔
      fraction = [] ∨ 2 ^ 1024 - 2 ^ 970 ≤ value := float?_eq_none_iff hwhole hfraction
  have hfactor := Parser.factor_float hnext hroom
  rw [FloatText.ofParts_text] at hfactor
  rw [← hnone]
  cases hread : float? (.ofParts whole fraction hwhole hfraction) with
  | none =>
      rw [hread] at hfactor
      exact ⟨iff_of_true hfactor rfl, fun h => absurd rfl h⟩
  | some m =>
      rw [hread] at hfactor
      refine ⟨iff_of_false ?_ (Option.some_ne_none m), fun _ => ?_⟩
      · rw [hfactor]
        nofun
      · exact ⟨m, nearest_of_float? hwhole hfraction hread, m.value_nonneg, m.value_lt, hfactor⟩

end Point

theorem cast_two_pow_sub {j k : Nat} (h : j ≤ k) : ((2 ^ k - 2 ^ j : Nat) : ℚ) = 2 ^ k - 2 ^ j := by
  rw [Nat.cast_sub (Nat.pow_le_pow_right (by decide) h)]
  push_cast
  rfl

theorem isDigit_of_mem_zeros_append {count n : Nat} :
    ∀ c ∈ List.replicate count '0' ++ digits n, isDigit c = true :=
  List.forall_mem_append.mpr
    ⟨fun _ hc => List.eq_of_mem_replicate hc ▸ rfl, fun _ => isDigit_of_mem_digits⟩

/-- The half-way point itself is turned down, and what is a tenth below it is read, behind any number
of zeros. -/
theorem factor_nearest_half_way :
    let top := 2 ^ 1024 - 2 ^ 970
    let refused := FloatText.ofParts (digits top) ['0'] (fun _ => isDigit_of_mem_digits)
      (List.forall_mem_singleton.mpr rfl)
    let taken := FloatText.ofParts (List.replicate 5000 '0' ++ digits (top - 1)) ['9']
      isDigit_of_mem_zeros_append (List.forall_mem_singleton.mpr rfl)
    let place : Location := ⟨1, 7, "<input>"⟩
    let reader (decimal : FloatText) : Parser.Reader := ⟨#[⟨.float decimal, place⟩], 0, 0⟩
    @Parser.factor .unlimited 7 (reader refused) =
        .error (.fault ((Cause.invalidFloat refused.text).fault place)) (reader refused).passed ∧
      ∃ m : Magnitude, m.value < 2 ^ 1024 ∧
        @Parser.factor .unlimited 7 (reader taken) =
          .ok (.float ⟨0, place⟩ m) (reader taken).passed := by
  intro top refused taken place reader
  have hpower {j k : Nat} (h : j < k) : 0 < 2 ^ k - 2 ^ j :=
    Nat.sub_pos_of_lt (Nat.pow_lt_pow_right (by decide) h)
  have hpos : 0 < top := hpower (by decide)
  have htop : (top : ℚ) = 2 ^ 1024 - 2 ^ 970 := cast_two_pow_sub (by decide)
  constructor
  · refine (@factor_nearest _ _ _ _ .unlimited place 7 (reader refused) rfl (by decide)).1.mpr
      (.inr ?_)
    rw [ofDigits_digits, htop]
    exact le_add_of_nonneg_right (div_nonneg (Nat.cast_nonneg _) (pow_nonneg (by norm_num) _))
  · have hbelow : ¬(['9'] = [] ∨ (2 : ℚ) ^ 1024 - 2 ^ 970 ≤
        ofDigits (List.replicate 5000 '0' ++ digits (top - 1)) +
          ofDigits ['9'] / 10 ^ ['9'].length) := by
      have hnine : (ofDigits ['9'] : ℚ) / 10 ^ ['9'].length < 1 := by
        rw [show ofDigits ['9'] = 9 from rfl, List.length_singleton]
        norm_num
      rw [← htop, ofDigits_zeros_append, ofDigits_digits, Nat.cast_sub hpos]
      rintro (h | h)
      · cases h
      · rw [Nat.cast_one] at h
        linarith
    obtain ⟨m, -, -, hvalue, hfactor⟩ :=
      (@factor_nearest _ _ _ _ .unlimited place 7 (reader taken) rfl (by decide)).2 hbelow
    exact ⟨m, hvalue, hfactor⟩

end ImpToC.Literal
