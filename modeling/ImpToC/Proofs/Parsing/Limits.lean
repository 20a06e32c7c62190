import ImpToC.Proofs.Parsing.Hosts

/-!
# What a limit on nesting changes

A host limits the calls that are open inside one another, and what is open in a sentence takes five
calls at most. So a limit shows only in sentences that are nested deeply as far as they can be read,
and the length of an expression, of a list of statements or of the whole sentence is none of its
concern. Where it does not show, it changes nothing.
-/

namespace ImpToC.Parser

variable {s : Sentence} {host : Host} {n : Nat} {f : Fault}

/-- A pass has no limit. -/
theorem ne_nested_of_pass (h : pass s = .error f) : f.cause ≠ .nestingTooDeep := by
  obtain ⟨index, hstop⟩ := exists_stopsAt h
  obtain ⟨t, m, -, hrefusal⟩ := hstop.exists_refusal
  exact hrefusal.cause_ne_nestingTooDeep

/-- Whatever a parser answers that is stopped by no limit, it answers without a limit. -/
theorem parse_unlimited_of_parse {r : Except Fault Program} (h : parse host s = r)
    (hr : ∀ f, r = .error f → f.cause ≠ .nestingTooDeep) : parse .unlimited s = r := by
  rcases parse_cases host s with hpass | ⟨t, -, hdeep⟩
  · rw [parse_unlimited, ← hpass, h]
  · exact absurd rfl (hr _ (h.symm.trans hdeep))

theorem parse_of_within (h : Within n s) (hcalls : ∀ calls ∈ host.calls, callsFor n ≤ calls) :
    parse host s = parse .unlimited s ∧ ∀ f, parse host s = .error f → f.cause ≠ .nestingTooDeep := by
  have hpass := parse_eq_pass h hcalls
  exact ⟨hpass.trans (parse_unlimited s).symm, fun f hf => ne_nested_of_pass (hpass.symm.trans hf)⟩

/-- Tokens that end in the end of a text make a sentence, and a limit on the calls of a parser shows
in it only where it is nested deeply. With at most 100 parentheses, negations and blocks open at
once, at every place that is reached, 511 calls suffice: the parser never finds too much nesting
and answers as without a limit, however many tokens there are. So it is with any number of them and
five times as many calls, and eleven more. Whatever is answered with any limit, but that there is
too much nesting, is answered without one. -/
theorem limit_shows_in_nesting_only {tokens : List Token} {t : Token}
    (hlast : tokens.getLast? = some t) (ht : t.lexeme = .finish) :
    ∃ s, Sentence.ofTokens? tokens = some s ∧
      (∀ host : Host, Within 100 s → (∀ calls ∈ host.calls, 511 ≤ calls) →
        parse host s = parse .unlimited s ∧
          ∀ f, parse host s = .error f → f.cause ≠ .nestingTooDeep) ∧
      (∀ (host : Host) (n : Nat), Within n s → (∀ calls ∈ host.calls, 5 * n + 11 ≤ calls) →
        parse host s = parse .unlimited s ∧
          ∀ f, parse host s = .error f → f.cause ≠ .nestingTooDeep) ∧
      (∀ (host : Host) (r : Except Fault Program), parse host s = r →
        (∀ f, r = .error f → f.cause ≠ .nestingTooDeep) → parse .unlimited s = r) ∧
      ∀ f, parse .unlimited s = .error f → f.cause ≠ .nestingTooDeep := by
  obtain ⟨s, hs⟩ := Sentence.exists_ofTokens? hlast ht
  refine ⟨s, hs, fun host h => parse_of_within h, fun host n => parse_of_within,
    fun host r => parse_unlimited_of_parse, fun f hf => ?_⟩
  exact ne_nested_of_pass ((parse_unlimited s).symm.trans hf)

/-- In `print -(1;` two are open at once, and a parenthesis is missing. With twelve calls it is not
seen that it is. -/
theorem limit_shows_in_nesting_only_unclosed :
    let words : List Token :=
      [.symbol .printWord, .symbol .minus, .symbol .openParen, .int ⟨"1", rfl⟩,
        .symbol .semicolon].map (⟨·, default⟩)
    let s : Sentence := ⟨words, default, by decide⟩
    let few : Host := ⟨some 12, none, nofun⟩
    let many : Host := ⟨some 511, none, nofun⟩
    Sentence.ofTokens? s.tokens = some s ∧ Within 2 s ∧
      parse few s = .error (Cause.nestingTooDeep.fault default) ∧
      parse many s = parse .unlimited s ∧
      parse .unlimited s = .error ((Cause.unexpectedToken ⟨.symbol .semicolon, default⟩
        [.symbol .closeParen]).fault default) := by
  intro words s few many
  obtain ⟨s', hs', hhundred, -, -, -⟩ :=
    @limit_shows_in_nesting_only s.tokens ⟨.finish, default⟩ rfl rfl
  obtain rfl : s = s' := Option.some.inj (show some s = some s' from hs')
  have hwithin : Within 2 s := by
    intro front hfront
    have hfronts : ∀ count ≤ 5, Grammar.nesting ((words.take count).map Token.kind) ≤ 2 := by decide
    rw [List.prefix_iff_eq_take.mp hfront.1]
    exact hfronts _ hfront.1.length_le
  have hcalls : ∀ calls ∈ many.calls, 511 ≤ calls := by
    intro calls h
    obtain rfl : 511 = calls := Option.some.inj h
    exact Nat.le_refl _
  exact ⟨rfl, hwithin, rfl, (hhundred many (hwithin.mono (by decide)) hcalls).1,
    (parse_unlimited s).trans rfl⟩

end ImpToC.Parser
