import Mathlib.Data.List.TakeWhile
import ImpToC.Proofs.Effects
import ImpToC.Proofs.Number.Digits
import ImpToC.Syntax.Literal

/-!
# Conversions of literals

Leading zeros aside, a text with more digits than the largest number is the text of a larger
number. So an integer literal may be turned down by its length, and no literal that could be
accepted is. What is left to convert is always short, and always of digits: no conversion turns
down what it is given.
-/

namespace ImpToC.Literal

open Number

/-! ## Lengths and values -/

theorem length_digits_largestInt : (digits largestInt).length = 19 := by decide

/-- A digit that is no zero makes a number as large as its place. -/
theorem tenTo_le_ofDigits {c : Char} {ds : List Char} (hdigit : isDigit c = true) (hc : c ≠ '0') :
    tenTo ds.length ≤ ofDigits (c :: ds) := by
  have hlow : '0' ≤ c := of_decide_eq_true (Bool.and_eq_true_iff.mp hdigit).1
  have hfirst : 1 ≤ ofDigits [c] := by
    have hne : c.toNat ≠ 48 := fun h => hc (Char.toNat_inj.mp h)
    have hle : 48 ≤ c.toNat := UInt32.le_iff_toNat_le.mp hlow
    change 1 ≤ 0 + (c.toNat - 48)
    omega
  calc tenTo ds.length
      ≤ ofDigits [c] * tenTo ds.length := Nat.le_mul_of_pos_left _ hfirst
    _ ≤ ofDigits [c] * tenTo ds.length + ofDigits ds := Nat.le_add_right _ _
    _ = ofDigits (c :: ds) := (ofDigits_append [c] ds).symm

variable {ds : List Char}

/-- Whatever is small enough has not too many digits, leading zeros not counted. -/
theorem length_dropZeros_le (hdigits : ∀ c ∈ ds, isDigit c = true) (h : ofDigits ds ≤ largestInt) :
    (ds.dropWhile (· = '0')).length ≤ (digits largestInt).length := by
  by_contra hlong
  rw [← ofDigits_dropZeros] at h
  cases hdrop : ds.dropWhile (· = '0') with
  | nil =>
      rw [hdrop] at hlong
      exact hlong (Nat.zero_le _)
  | cons c rest =>
      rw [hdrop, List.length_cons] at hlong
      have hdigit : isDigit c = true := by
        apply hdigits c
        exact (List.dropWhile_suffix _).subset (hdrop ▸ List.mem_cons_self)
      have hc : c ≠ '0' := by
        have hhead := List.head?_dropWhile_not (fun c => decide (c = '0')) ds
        rw [hdrop] at hhead
        simpa using hhead
      apply Nat.lt_irrefl largestInt
      calc largestInt
          < tenTo (digits largestInt).length := lt_tenTo_length_digits largestInt
        _ ≤ tenTo rest.length := Nat.pow_le_pow_right (by decide) (by omega)
        _ ≤ ofDigits (c :: rest) := tenTo_le_ofDigits hdigit hc
        _ ≤ largestInt := hdrop ▸ h

/-- Counting digits turns nothing down that its value would not. -/
theorem int?_eq (hdigits : ∀ c ∈ ds, isDigit c = true) :
    int? (.ofDigits ds hdigits) = if ofDigits ds ≤ largestInt then some (ofDigits ds) else none := by
  simp only [int?, IntText.ofDigits_text, String.toList_ofList, ofDigits_dropZeros]
  by_cases h : ofDigits ds ≤ largestInt
  · rw [if_pos ⟨length_dropZeros_le hdigits h, h⟩, if_pos h]
  · rw [if_neg (mt And.right h), if_neg h]

/-! ## Conversions -/

variable {limit : Option Nat}

/-- Few enough digits are converted. -/
theorem convert_eq (hlimit : ∀ n ∈ limit, ds.length ≤ n) (hne : ds ≠ [])
    (hdigits : ∀ c ∈ ds, isDigit c = true) (calls : List (List Char)) :
    convert limit ds calls = .ok (ofDigits ds) (ds :: calls) := by
  have hall : ds.all isDigit = true := List.all_eq_true.mpr hdigits
  have hfew : limit.all (ds.length ≤ ·) = true := by
    rw [Option.all_eq_true]
    exact fun n hn => decide_eq_true (hlimit n hn)
  change (if ds ≠ [] ∧ ds.all isDigit ∧ limit.all (ds.length ≤ ·) then
    (return ofDigits ds : Read Nat) else throw (.refused ds)) (ds :: calls) = _
  rw [if_pos ⟨hne, hall, hfew⟩]
  rfl

theorem toConvert_ne_nil (ds : List Char) : toConvert ds ≠ [] := by
  unfold toConvert
  dsimp only
  split
  next => exact List.cons_ne_nil _ _
  next h => exact fun hnil => h (List.isEmpty_iff.mpr hnil)

theorem isDigit_of_mem_toConvert (hdigits : ∀ c ∈ ds, isDigit c = true) :
    ∀ c ∈ toConvert ds, isDigit c = true := by
  unfold toConvert
  dsimp only
  split
  next => exact List.forall_mem_singleton.mpr rfl
  next => exact fun c hc => hdigits c ((List.dropWhile_suffix _).subset hc)

theorem length_toConvert_le (h : (ds.dropWhile (· = '0')).length ≤ 19) :
    (toConvert ds).length ≤ 19 := by
  unfold toConvert
  dsimp only
  split
  next => decide
  next => exact h

theorem ofDigits_toConvert (ds : List Char) : ofDigits (toConvert ds) = ofDigits ds := by
  rw [← ofDigits_dropZeros ds, toConvert]
  split
  next h =>
    rw [List.isEmpty_iff.mp h]
    rfl
  next => rfl

/-- A literal is only given to the conversion when it has few digits, and then it is converted: it is
read as its value, or turned down for it. -/
theorem readInt_eq (hlimit : ∀ n ∈ limit, 19 ≤ n) (literal : IntText) (location : Location) :
    ∃ calls : List (List Char), (∀ call ∈ calls, call.length ≤ 19) ∧
      readInt limit literal.text location [] =
        match int? literal with
        | some value => .ok value calls
        | none => .error (.fault ((Cause.invalidInt literal.text).fault location)) calls := by
  have hdigits : ∀ c ∈ literal.text.toList, isDigit c = true := List.all_eq_true.mp literal.digits
  by_cases hshort : (literal.text.toList.dropWhile (· = '0')).length ≤ (digits largestInt).length
  · have hfew := length_toConvert_le (length_digits_largestInt ▸ hshort)
    have hconvert := convert_eq (fun n hn => Nat.le_trans hfew (hlimit n hn))
      (toConvert_ne_nil _) (isDigit_of_mem_toConvert hdigits) []
    rw [ofDigits_toConvert] at hconvert
    refine ⟨[toConvert literal.text.toList], List.forall_mem_singleton.mpr hfew, ?_⟩
    rw [readInt, if_pos hshort, bind_of_ok (map_of_ok hconvert), int?]
    simp only [ofDigits_dropZeros]
    have hsmall : smallestInt ≤ (ofDigits literal.text.toList : Int) := by
      have hzero : smallestInt ≤ 0 := by decide
      omega
    by_cases h : ofDigits literal.text.toList ≤ largestInt
    · rw [if_pos ⟨hsmall, h⟩, if_pos ⟨hshort, h⟩]
      rfl
    · rw [if_neg fun hboth => h hboth.2, if_neg fun hboth => h hboth.2]
      rfl
  · refine ⟨[], List.forall_mem_nil _, ?_⟩
    rw [readInt, if_neg hshort, pure_bind, int?, if_neg fun hboth => hshort hboth.1]
    rfl

/-! ## Decimals -/

/-- A decimal that does not end in its point has a digit. -/
theorem any_isDigit_of_isDecimal {text : List Char} (h : isDecimal text = true)
    (hlast : text.getLast? ≠ some '.') : text.any isDigit = true := by
  by_contra hnone
  have hno : ∀ c ∈ text, isDigit c = false := by simpa using hnone
  have hdrop : text.dropWhile isDigit = text := List.dropWhile_eq_self_iff.mpr fun hpos => by
    simpa using hno _ (List.getElem_mem hpos)
  rw [isDecimal, hdrop] at h
  cases text with
  | nil => cases h
  | cons c rest =>
      obtain ⟨hpoint, hrest⟩ : c = '.' ∧ rest.all isDigit = true := by simpa using h
      subst hpoint
      cases rest with
      | nil => exact hlast rfl
      | cons d rest =>
          have hd := hno d (List.mem_cons_of_mem _ List.mem_cons_self)
          rw [List.all_cons, hd] at hrest
          cases hrest

/-- A literal that does not end in its point is converted: it is read as its value, or turned down
for it. -/
theorem readFloat_eq (decimal : FloatText) (location : Location) :
    ∃ calls : List (List Char), readFloat decimal.text location [] =
      match float? decimal with
      | some value => .ok value calls
      | none => .error (.fault ((Cause.invalidFloat decimal.text).fault location)) calls := by
  by_cases hlast : decimal.text.toList.getLast? = some '.'
  · refine ⟨[], ?_⟩
    rw [readFloat, float?, if_pos hlast, if_pos hlast]
    exact bind_of_error rfl
  · have hdigit := any_isDigit_of_isDecimal decimal.decimal hlast
    have hconvert : convertDecimal decimal.text.toList [] =
        .ok (Decimal.ofPlain decimal.text.toList).nearest? [decimal.text.toList] := by
      have hlog : (modify (decimal.text.toList :: ·) : Read PUnit) [] =
          .ok ⟨⟩ [decimal.text.toList] := rfl
      refine (bind_of_ok hlog).trans ?_
      rw [if_pos ⟨decimal.decimal, hdigit⟩]
      rfl
    refine ⟨[decimal.text.toList], ?_⟩
    rw [readFloat, float?, if_neg hlast, if_neg hlast]
    refine (bind_of_ok hconvert).trans ?_
    cases (Decimal.ofPlain decimal.text.toList).nearest? with
    | none => rfl
    | some value => rfl

end ImpToC.Literal
