import ImpToC.Proofs.Parsing.Descents

/-!
# Integer literals

A literal is turned down for its length only where its value is too large, and what is left to
convert is always short. A parser goes on with the value, or it reports the literal at its place.
-/

namespace ImpToC.Literal

open Number

/-- An integer literal of any length is read as its value if that is below two to the power of 63,
and otherwise turned down with its text at its place, which is all that can stop the reading. No
more than nineteen digits are converted at once, so a conversion with a limit that is not smaller is
as good as one without. The parser goes on with the same value or stops with the same fault. -/
theorem readInt_exact {limit : Option Nat} (hlimit : ∀ n ∈ limit, 19 ≤ n) {ds : List Char}
    (hdigits : ∀ c ∈ ds, isDigit c = true) (location : Location) :
    let text := String.ofList ds
    let fault := (Cause.invalidInt text).fault location
    (∃ calls, (∀ call ∈ calls, call.length ≤ 19) ∧
      readInt limit text location [] =
        if ofDigits ds ≤ Nat.pow 2 63 - 1 then .ok (ofDigits ds) calls
        else .error (.fault fault) calls) ∧
    ∀ (host : Host) (room : Nat) (d : Parser.Reader),
      d.next? = some ⟨.int (.ofDigits ds hdigits), location⟩ → 7 ≤ room →
        @Parser.factor host room d =
          if ofDigits ds ≤ Nat.pow 2 63 - 1 then
            .ok (.int ⟨d.nextId, location⟩ (ofDigits ds)) d.passed
          else .error (.fault fault) d.passed := by
  intro text fault
  obtain ⟨calls, hshort, hread⟩ := readInt_eq hlimit (.ofDigits ds hdigits) location
  rw [IntText.ofDigits_text, int?_eq hdigits] at hread
  have hfactor (host : Host) (room : Nat) (d : Parser.Reader)
      (hnext : d.next? = some ⟨.int (.ofDigits ds hdigits), location⟩) (hroom : 7 ≤ room) :=
    Parser.factor_int hnext hroom
  simp only [IntText.ofDigits_text, int?_eq hdigits] at hfactor
  by_cases h : ofDigits ds ≤ largestInt
  · rw [if_pos h] at hread
    simp only [if_pos h] at hfactor
    refine ⟨⟨calls, hshort, hread.trans (if_pos h).symm⟩, fun host room d hnext hroom => ?_⟩
    exact (hfactor host room d hnext hroom).trans (if_pos h).symm
  · rw [if_neg h] at hread
    simp only [if_neg h] at hfactor
    refine ⟨⟨calls, hshort, hread.trans (if_neg h).symm⟩, fun host room d hnext hroom => ?_⟩
    exact (hfactor host room d hnext hroom).trans (if_neg h).symm

/-- Behind thousands of zeros the largest number is still read, by a conversion that would not take
them, and a number of thousands of digits is turned down. -/
theorem readInt_exact_thousands :
    let large := List.replicate 5000 '0' ++ "9223372036854775807".toList
    let larger := List.replicate 5000 '5'
    let place : Location := ⟨1, 7, "<input>"⟩
    (∃ calls, (∀ call ∈ calls, call.length ≤ 19) ∧
      readInt (some 4300) (String.ofList large) place [] = .ok 9223372036854775807 calls) ∧
    ∃ calls, (∀ call ∈ calls, call.length ≤ 19) ∧
      readInt (some 4300) (String.ofList larger) place [] =
        .error (.fault ((Cause.invalidInt (String.ofList larger)).fault place)) calls := by
  intro large larger place
  have hlimit : ∀ n ∈ some 4300, 19 ≤ n := by simp
  constructor
  · have hdigits : ∀ c ∈ large, isDigit c = true := by
      rw [List.forall_mem_append]
      exact ⟨fun c hc => List.eq_of_mem_replicate hc ▸ rfl, List.all_eq_true.mp rfl⟩
    have hvalue : ofDigits large = 9223372036854775807 := by
      rw [ofDigits_zeros_append]
      decide
    obtain ⟨calls, hcalls, hread⟩ := (readInt_exact hlimit hdigits place).1
    refine ⟨calls, hcalls, ?_⟩
    rw [hread, hvalue, if_pos (by decide)]
  · have hdigits : ∀ c ∈ larger, isDigit c = true :=
      fun c hc => List.eq_of_mem_replicate hc ▸ rfl
    have hvalue : tenTo 4999 ≤ ofDigits larger := by
      have hle := @tenTo_le_ofDigits '5' (List.replicate 4999 '5') rfl (by decide)
      rwa [List.length_replicate] at hle
    have hlarge : ¬ofDigits larger ≤ Nat.pow 2 63 - 1 := by
      have hpower : tenTo 19 < tenTo 4999 := tenTo_lt_iff.mpr (by decide)
      have hbound : Nat.pow 2 63 - 1 < tenTo 19 := by decide
      omega
    obtain ⟨calls, hcalls, hread⟩ := (readInt_exact hlimit hdigits place).1
    refine ⟨calls, hcalls, ?_⟩
    rw [hread, if_neg hlarge]

end ImpToC.Literal
