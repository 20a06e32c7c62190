import ImpToC.Proofs.Parsing.Passes

/-!
# Sentences and their mistakes

A list of tokens makes a sentence when its last token is the end of a text, and the
words of that sentence are the tokens before the first end. A pass that turns a
sentence down does so at one of its tokens.
-/

namespace ImpToC

namespace Sentence

theorem words_of_upToFinish {tokens : List Token} {s : Sentence} (h : upToFinish tokens = some s) :
    s.words = tokens.takeWhile (·.lexeme ≠ .finish) := by
  induction tokens generalizing s with
  | nil => cases h
  | cons t rest ih =>
      rw [upToFinish] at h
      split at h
      next ht =>
        cases h
        simp [ht]
      next ht =>
        obtain ⟨s', hs', rfl⟩ := Option.map_eq_some_iff.mp h
        simp [ht, ih hs']

theorem exists_upToFinish {tokens : List Token} {t : Token} (hmem : t ∈ tokens)
    (ht : t.lexeme = .finish) : ∃ s, upToFinish tokens = some s := by
  induction tokens with
  | nil => cases hmem
  | cons first rest ih =>
      rw [upToFinish]
      split
      next => exact ⟨_, rfl⟩
      next hfirst =>
        rcases List.mem_cons.mp hmem with rfl | hrest
        · exact absurd ht hfirst
        · obtain ⟨s, hs⟩ := ih hrest
          exact ⟨_, by rw [hs]; rfl⟩

theorem exists_of_upToFinish {tokens : List Token} {s : Sentence}
    (h : upToFinish tokens = some s) : ∃ rest, tokens = s.tokens ++ rest := by
  induction tokens generalizing s with
  | nil => cases h
  | cons t rest ih =>
      rw [upToFinish] at h
      split at h
      next ht =>
        cases h
        have htoken : t = ⟨.finish, t.location⟩ := by rw [← ht]
        exact ⟨rest, congrArg (· :: rest) htoken⟩
      next =>
        obtain ⟨s', hs', rfl⟩ := Option.map_eq_some_iff.mp h
        obtain ⟨rest', hrest⟩ := ih hs'
        exact ⟨rest', congrArg (t :: ·) hrest⟩

theorem upToFinish_of_ofTokens? {tokens : List Token} {s : Sentence}
    (h : ofTokens? tokens = some s) : upToFinish tokens = some s := by
  unfold ofTokens? at h
  split at h
  next =>
    split at h
    next => exact h
    next => cases h
  next => cases h

theorem words_of_ofTokens? {tokens : List Token} {s : Sentence} (h : ofTokens? tokens = some s) :
    s.words = tokens.takeWhile (·.lexeme ≠ .finish) :=
  words_of_upToFinish (upToFinish_of_ofTokens? h)

/-- Tokens that end in the end of a text make a sentence. -/
theorem exists_ofTokens? {tokens : List Token} {t : Token} (hlast : tokens.getLast? = some t)
    (ht : t.lexeme = .finish) : ∃ s, ofTokens? tokens = some s := by
  obtain ⟨s, hs⟩ := exists_upToFinish (List.mem_of_getLast? hlast) ht
  exact ⟨s, by simp [ofTokens?, hlast, ht, hs]⟩

/-- The tokens of a sentence make that sentence. -/
theorem ofTokens?_tokens (s : Sentence) : ofTokens? s.tokens = some s := by
  obtain ⟨words, finish, h⟩ := s
  have hupTo : upToFinish (words ++ [⟨.finish, finish⟩]) = some ⟨words, finish, h⟩ := by
    induction words with
    | nil => rfl
    | cons t rest ih =>
        obtain ⟨ht, hrest⟩ := List.forall_mem_cons.mp h
        rw [List.cons_append, upToFinish, dif_neg ht, ih hrest]
        rfl
  simp [ofTokens?, tokens, hupTo]

end Sentence

namespace Parser

/-! ## Mistakes of syntax -/

/-- What a pass can find wrong with a token. -/
inductive Refusal (s : State) (t : Token) : Fault → Prop
  | unexpected : Refusal s t (s.unexpected t)
  | invalidInt (text : String) : Refusal s t ((Cause.invalidInt text).fault t.location)
  | invalidFloat (text : String) : Refusal s t ((Cause.invalidFloat text).fault t.location)

namespace Refusal

variable {s : State} {t : Token} {f : Fault}

theorem family (h : Refusal s t f) : f.cause.family = .syntactic := by
  cases h <;> rfl

theorem location (h : Refusal s t f) : f.location = some t.location := by
  cases h <;> rfl

theorem cause_ne_nestingTooDeep (h : Refusal s t f) : f.cause ≠ .nestingTooDeep := by
  cases h <;> exact nofun

/-- A token that is not expected is named together with what is. -/
theorem of_cause (h : Refusal s t f) {found : Token} {expected : List Kind}
    (hcause : f.cause = .unexpectedToken found expected) : f = s.unexpected t := by
  cases h with
  | unexpected => rfl
  | invalidInt | invalidFloat => cases hcause

theorem of_stepFresh (h : s.stepFresh t = .error f) : Refusal s t f := by
  unfold State.stepFresh at h
  split at h
  next => cases h
  next => cases h
  next => cases h
  next => cases h
  next => cases h
  next =>
    split at h
    next => cases h
    next => cases h; exact .unexpected
  next => cases h
  next => cases h
  next => cases h
  next => cases h
  next => cases h; exact .unexpected

theorem of_stepOperand {purpose : Purpose} {frames : List Frame}
    (h : s.stepOperand purpose frames t = .error f) : Refusal s t f := by
  unfold State.stepOperand at h
  dsimp only at h
  split at h
  next =>
    split at h
    next => cases h
    next => cases h; exact .invalidInt _
  next =>
    split at h
    next => cases h
    next => cases h; exact .invalidFloat _
  next => cases h
  next => cases h
  next => cases h
  next => cases h
  next => cases h; exact .unexpected

theorem of_stepOperator {purpose : Purpose} {frames : List Frame} {value : Expr}
    (h : s.stepOperator purpose frames value t = .error f) : Refusal s t f := by
  unfold State.stepOperator at h
  split at h
  next =>
    split at h
    next => cases h
    next => cases h
    next =>
      split at h
      next =>
        split at h
        next => cases h
        next => cases h; exact .unexpected
      next =>
        split at h
        next => cases h
        next => cases h; exact .unexpected
  next => cases h; exact .unexpected

theorem of_step (h : s.step t = .error f) : Refusal s t f := by
  unfold State.step at h
  cases hphase : s.phase with
  | fresh =>
      rw [hphase] at h
      exact of_stepFresh h
  | operand purpose frames =>
      rw [hphase] at h
      exact of_stepOperand h
  | operator purpose frames value =>
      rw [hphase] at h
      exact of_stepOperator h
  | declared | reading | named | typed | filling | target =>
      rw [hphase] at h
      dsimp only at h
      split at h
      next => cases h
      next => cases h; exact .unexpected
  | typing =>
      rw [hphase] at h
      dsimp only at h
      split at h
      next =>
        split at h
        next => cases h
        next => cases h; exact .unexpected
      next => cases h; exact .unexpected

theorem of_finish {location : Location} (h : s.finish location = .error f) :
    Refusal s ⟨.finish, location⟩ f := by
  unfold State.finish at h
  split at h
  next => cases h
  next => cases h; exact .unexpected

end Refusal

/-- What a parser can find wrong with a token: what a pass can, or that it is nested too deeply. -/
inductive TurnsDown (t : Token) : Fault → Prop
  | refusal {s : State} {f : Fault} (h : Refusal s t f) : TurnsDown t f
  | nested : TurnsDown t (Cause.nestingTooDeep.fault t.location)

namespace TurnsDown

variable {t : Token} {f : Fault}

theorem family (h : TurnsDown t f) : f.cause.family = .syntactic := by
  cases h with
  | refusal h => exact h.family
  | nested => rfl

theorem location (h : TurnsDown t f) : f.location = some t.location := by
  cases h with
  | refusal h => exact h.location
  | nested => rfl

end TurnsDown

end Parser

end ImpToC
