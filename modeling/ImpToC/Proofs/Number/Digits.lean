import ImpToC.Number.Shortest
import ImpToC.Token.Spelling

/-!
# Decimal digits

The digits of a number have its value, and zeros behind them scale it by powers of ten. So the
digits of a coefficient are those written with a number, and zeros.
-/

namespace ImpToC.Number

/-! ## Powers of ten -/

theorem tenTo_pos (n : Nat) : 0 < tenTo n := Nat.pow_pos (by decide)

theorem tenTo_add (m n : Nat) : tenTo (m + n) = tenTo m * tenTo n := Nat.pow_add 10 m n

theorem tenTo_lt_iff {m n : Nat} : tenTo m < tenTo n ↔ m < n :=
  Nat.pow_lt_pow_iff_right (by decide)

/-! ## Values of digits -/

theorem ofDigits_eq (ds : List Char) : ofDigits ds = Nat.ofDigitChars 10 ds 0 := rfl

theorem ofDigits_append (xs ys : List Char) :
    ofDigits (xs ++ ys) = ofDigits xs * tenTo ys.length + ofDigits ys := by
  rw [ofDigits_eq, Nat.ofDigitChars_append, Nat.ofDigitChars_eq_ofDigitChars_zero, Nat.mul_comm]
  rfl

theorem ofDigits_zeros (n : Nat) : ofDigits (List.replicate n '0') = 0 := by
  rw [ofDigits_eq, Nat.ofDigitChars_replicate_zero, Nat.mul_zero]

theorem ofDigits_append_zeros (ds : List Char) (n : Nat) :
    ofDigits (ds ++ List.replicate n '0') = ofDigits ds * tenTo n := by
  rw [ofDigits_append, ofDigits_zeros, List.length_replicate, Nat.add_zero]

theorem ofDigits_zeros_append (n : Nat) (ds : List Char) :
    ofDigits (List.replicate n '0' ++ ds) = ofDigits ds := by
  rw [ofDigits_append, ofDigits_zeros, Nat.zero_mul, Nat.zero_add]

theorem ofDigits_dropZeros (ds : List Char) :
    ofDigits (ds.dropWhile (· = '0')) = ofDigits ds := by
  induction ds with
  | nil => rfl
  | cons c ds ih =>
      rw [List.dropWhile_cons]
      split
      next hzero =>
        rw [ih, of_decide_eq_true hzero]
        exact (ofDigits_zeros_append 1 ds).symm
      next => rfl

/-! ## Digits of values -/

theorem ofDigits_digits (n : Nat) : ofDigits (digits n) = n :=
  Nat.ofDigitChars_ten_toDigits

theorem digits_injective : Function.Injective digits := by
  intro m n h
  rw [← ofDigits_digits m, h, ofDigits_digits]

theorem digits_ne_nil (n : Nat) : digits n ≠ [] := Nat.toDigits_ne_nil

theorem isDigit_of_mem_digits {n : Nat} {c : Char} (h : c ∈ digits n) : isDigit c = true := by
  have hdigit := Nat.isDigit_of_mem_toDigits (by decide) (by decide) h
  simpa [Char.isDigit, isDigit, Char.le_def] using hdigit

theorem length_digits_le_iff {n k : Nat} (hk : 0 < k) : (digits n).length ≤ k ↔ n < tenTo k :=
  Nat.length_toDigits_le_iff (by decide) hk

theorem lt_tenTo_length_digits (n : Nat) : n < tenTo (digits n).length :=
  (length_digits_le_iff (List.length_pos_iff.mpr (digits_ne_nil n))).mp (Nat.le_refl _)

theorem tenTo_le_of_lt_length_digits {n k : Nat} (hn : n ≠ 0) (h : k < (digits n).length) :
    tenTo k ≤ n := by
  cases k with
  | zero => exact Nat.pos_of_ne_zero hn
  | succ k =>
      have hlt := mt (length_digits_le_iff (Nat.succ_pos k)).mpr (Nat.not_le.mpr h)
      exact Nat.not_lt.mp hlt

/-! ## Significant digits -/

/-- The digits of a coefficient are the significant ones, and zeros. -/
theorem exists_zeros_of_digits (n : Nat) :
    ∃ k, digits n = significantDigits n ++ List.replicate k '0' := by
  have hzeros : ∀ c ∈ (digits n).reverse.takeWhile (· = '0'), c = '0' := by
    intro c hc
    exact of_decide_eq_true (List.all_eq_true.mp List.all_takeWhile c hc)
  refine ⟨((digits n).reverse.takeWhile (· = '0')).length, ?_⟩
  calc digits n
      = ((digits n).reverse.takeWhile (· = '0') ++
          (digits n).reverse.dropWhile (· = '0')).reverse := by
        rw [List.takeWhile_append_dropWhile, List.reverse_reverse]
    _ = significantDigits n ++ ((digits n).reverse.takeWhile (· = '0')).reverse :=
        List.reverse_append
    _ = _ := by
        rw [List.eq_replicate_of_mem hzeros, List.reverse_replicate, List.length_replicate]

theorem isDigit_of_mem_significantDigits {n : Nat} {c : Char} (h : c ∈ significantDigits n) :
    isDigit c = true := by
  obtain ⟨k, hk⟩ := exists_zeros_of_digits n
  exact isDigit_of_mem_digits (hk ▸ List.mem_append_left _ h)

theorem significantDigits_ne_nil {n : Nat} (hn : n ≠ 0) : significantDigits n ≠ [] := by
  intro h
  obtain ⟨k, hk⟩ := exists_zeros_of_digits n
  rw [h, List.nil_append] at hk
  apply hn
  rw [← ofDigits_digits n, hk, ofDigits_zeros]

/-! ## Whole numbers as texts -/

theorem toList_toString (n : Nat) : (toString n).toList = digits n := by
  rw [Nat.toString_eq_ofList_toDigits, String.toList_ofList]
  rfl

theorem isDigit_of_mem_toString {n : Nat} {c : Char} (h : c ∈ (toString n).toList) :
    isDigit c = true :=
  isDigit_of_mem_digits (toList_toString n ▸ h)

theorem toString_injective : Function.Injective (toString : Nat → String) := by
  intro m n h
  apply digits_injective
  rw [← toList_toString, h, toList_toString]

end ImpToC.Number
