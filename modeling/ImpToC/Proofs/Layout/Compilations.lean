import ImpToC.Proofs.Layout.Parsing
import ImpToC.Proofs.Layout.Passes
import ImpToC.Proofs.Stages

/-!
# Compilations at other places

The main statement of this part: what a compilation makes of a list of tokens depends on
their words alone. Where the tokens are shows in the locations of trees and faults, in the
lines that diagnostics quote, and nowhere else.
-/

namespace ImpToC

/-- Take all locations for the same one. -/
def Location.forget (_ : Location) : Location := default

/-- Tokens with the same words are the same up to their locations. -/
theorem Token.map_relocate_forget {tokens tokens' : List Token}
    (h : tokens.map lexeme = tokens'.map lexeme) :
    tokens.map (relocate Location.forget) = tokens'.map (relocate Location.forget) := by
  have hrelocate : relocate Location.forget = (fun word => ⟨word, default⟩) ∘ lexeme := rfl
  rw [hrelocate, ← List.map_map, h, List.map_map]

section Stages

variable (f : Location → Location)

theorem Sentence.parse_mapError [Host] (lines : List (List Char)) (s : Sentence) :
    (s.parse lines).mapError Diagnostic.fault = Program.ofSentence s := by
  unfold parse
  cases Program.ofSentence s <;> rfl

theorem Program.typing_relocate (lines lines' : List (List Char)) (p : Program) :
    ((p.relocate f).typing lines').mapError Diagnostic.fault =
      Fault.relocateOutcome f (Typing.relocate f)
        ((p.typing lines).mapError Diagnostic.fault) := by
  have hextend := Typing.extend_relocate f .empty p
  rw [show Typing.relocate f .empty = .empty from rfl] at hextend
  unfold typing
  rw [hextend]
  obtain ⟨_ | fault, t⟩ := Typing.empty.extend p <;> rfl

theorem Program.code_relocate (p : Program) (symbols : Table String Ty) (types : Table Nat Ty) :
    ((p.relocate f).code symbols types).mapError Diagnostic.fault =
      Fault.relocateOutcome f id ((p.code symbols types).mapError Diagnostic.fault) := by
  unfold code
  rw [C.Generator.generate_relocate]
  cases ((C.Generator.ofTables symbols types).generate p).1 <;> rfl

namespace Compilation

theorem mapError_bind_pure {α : Type} (x : Except Diagnostic α) (next : α → Compilation) :
    (x >>= fun a => pure (next a)).mapError Diagnostic.fault =
      (x.mapError Diagnostic.fault).map next := by
  cases x <;> rfl

theorem map_relocateOutcome {α : Type} {move : α → α} {next next' : α → Compilation}
    (hnext : ∀ a, next' (move a) = (next a).relocate f) (x : Except Fault α) :
    (Fault.relocateOutcome f move x).map next' =
      Fault.relocateOutcome f (relocate f) (x.map next) := by
  cases x with
  | ok a => exact congrArg Except.ok (hnext a)
  | error fault => rfl

variable [Host]

/-- A stage behind the first one does the same at other places. -/
theorem advance_relocate (source source' : Source) {c : Compilation} (hc : c ≠ .started) :
    ((c.relocate f).advance source').mapError Diagnostic.fault =
      Fault.relocateOutcome f (relocate f) ((c.advance source).mapError Diagnostic.fault) := by
  cases c with
  | started => exact absurd rfl hc
  | scanned s =>
      simp only [relocate, advance, mapError_bind_pure, Sentence.parse_mapError]
      rw [Program.ofSentence, Parser.parse_relocate]
      apply map_relocateOutcome
      intro made
      rfl
  | parsed s p =>
      simp only [relocate, advance, mapError_bind_pure]
      rw [Program.typing_relocate f source.lines]
      apply map_relocateOutcome
      intro made
      rfl
  | typed s p t =>
      simp only [relocate, advance, mapError_bind_pure]
      rw [Typing.relocate_symbols, Typing.relocate_types, Program.code_relocate]
      apply map_relocateOutcome
      intro made
      rfl
  | generated s p t file => rfl

theorem advance_ne_started {source : Source} {c next : Compilation}
    (h : c.advance source = .ok next) : next ≠ .started := by
  rintro rfl
  have hstage := advance_eq_ok_iff.mp h
  cases c <;> simp at hstage

/-- So do some stages in turn, and they stop behind the same one. -/
theorem run_relocate (source source' : Source) (stages : Nat) {c : Compilation}
    (hc : c ≠ .started) :
    (run source' stages (c.relocate f)).1 = (run source stages c).1.relocate f ∧
      (run source' stages (c.relocate f)).2.map Diagnostic.fault =
        (run source stages c).2.map fun d => d.fault.relocate f := by
  induction stages generalizing c with
  | zero => exact ⟨rfl, rfl⟩
  | succ stages ih =>
      have hadvance := advance_relocate f source source' hc
      rw [run, run]
      cases hnext : c.advance source with
      | ok next =>
          rw [hnext] at hadvance
          cases hnext' : (c.relocate f).advance source' with
          | ok next' =>
              rw [hnext'] at hadvance
              obtain rfl : next' = next.relocate f := Except.ok.inj hadvance
              exact ih (advance_ne_started hnext)
          | error d' =>
              rw [hnext'] at hadvance
              cases hadvance
      | error d =>
          rw [hnext] at hadvance
          cases hnext' : (c.relocate f).advance source' with
          | ok next' =>
              rw [hnext'] at hadvance
              cases hadvance
          | error d' =>
              rw [hnext'] at hadvance
              exact ⟨rfl, congrArg some (Except.error.inj hadvance)⟩

omit [Host] in
@[simp] theorem relocate_file? (c : Compilation) : (c.relocate f).file? = c.file? := by
  cases c <;> rfl

variable {f}

/-- Compilations that go on from the same at different places come equally far and stop for
the same cause. -/
theorem run_alike {c c' : Compilation} (hc : c ≠ .started) (hc' : c' ≠ .started)
    (heq : c.relocate f = c'.relocate f) (source source' : Source) (stages : Nat) :
    (run source stages c).1.relocate f = (run source' stages c').1.relocate f ∧
      (run source stages c).2.map (·.fault.relocate f) =
        (run source' stages c').2.map (·.fault.relocate f) := by
  obtain ⟨hmade, hfault⟩ := run_relocate f source source stages hc
  obtain ⟨hmade', hfault'⟩ := run_relocate f source' source stages hc'
  rw [heq] at hmade hfault
  exact ⟨hmade.symm.trans hmade', hfault.symm.trans hfault'⟩

end Compilation

/-- A check leaves the same types and the same variables on record for programs that are the
same up to places. -/
theorem Typing.extend_alike {f} {p p' : Program} (heq : p.relocate f = p'.relocate f) :
    (empty.extend p).2.symbols = (empty.extend p').2.symbols ∧
      (empty.extend p).2.types = (empty.extend p').2.types := by
  have hrecord : (empty.extend p).2.relocate f = (empty.extend p').2.relocate f := by
    have h := congrArg Prod.snd (extend_relocate f empty p)
    have h' := congrArg Prod.snd (extend_relocate f empty p')
    rw [heq] at h
    exact h.symm.trans h'
  rw [← relocate_symbols f (empty.extend p).2, ← relocate_types f (empty.extend p).2, hrecord]
  exact ⟨relocate_symbols f _, relocate_types f _⟩

/-- Sentences that are the same up to places are programs that are. -/
theorem Program.relocate_eq_of_ofSentence [Host] {f} {s s' : Sentence} {p p' : Program}
    (heq : s.relocate f = s'.relocate f) (h : ofSentence s = .ok p)
    (h' : ofSentence s' = .ok p') : p.relocate f = p'.relocate f := by
  have hparse := Parser.parse_relocate f inferInstance s
  have hparse' := Parser.parse_relocate f inferInstance s'
  rw [show Parser.parse _ s = .ok p from h] at hparse
  rw [show Parser.parse _ s' = .ok p' from h', ← heq] at hparse'
  exact Except.ok.inj (hparse.symm.trans hparse')

end Stages

/-! ## The main statement -/

theorem Sentence.ofTokens?_forget {tokens tokens' : List Token}
    (h : tokens.map Token.lexeme = tokens'.map Token.lexeme) :
    (ofTokens? tokens).map (relocate Location.forget) =
      (ofTokens? tokens').map (relocate Location.forget) := by
  rw [← ofTokens?_relocate, ← ofTokens?_relocate, Token.map_relocate_forget h]

/-- Lists of tokens with the same words fare alike in every respect but the locations of
their tokens, whatever the lines are that diagnostics quote. Either both make a sentence or
none does, and of two sentences: compilations come equally far, with the same trees, numbers
of expressions, tables of types and code, and stop for the same cause; what is on record
behind a check is the same also where the check fails; and a parser turns both down at the
token with the same index. -/
theorem Compilation.run_forget [Host] {tokens tokens' : List Token}
    (h : tokens.map Token.lexeme = tokens'.map Token.lexeme) (source source' : Source) :
    (Sentence.ofTokens? tokens).isSome = (Sentence.ofTokens? tokens').isSome ∧
    ∀ s s', Sentence.ofTokens? tokens = some s → Sentence.ofTokens? tokens' = some s' →
      (∀ stages,
        (run source stages (.scanned s)).1.relocate .forget =
          (run source' stages (.scanned s')).1.relocate .forget ∧
        (run source stages (.scanned s)).1.file?.map C.File.text =
          (run source' stages (.scanned s')).1.file?.map C.File.text ∧
        (run source stages (.scanned s)).2.map (·.fault.relocate .forget) =
          (run source' stages (.scanned s')).2.map (·.fault.relocate .forget) ∧
        (run source stages (.scanned s)).2.map (·.cause.message) =
          (run source' stages (.scanned s')).2.map (·.cause.message)) ∧
      (∀ p p', Program.ofSentence s = .ok p → Program.ofSentence s' = .ok p' →
        (Typing.empty.extend p).2.symbols = (Typing.empty.extend p').2.symbols ∧
        (Typing.empty.extend p).2.types = (Typing.empty.extend p').2.types) ∧
      ∀ host fault, Parser.parse host s = .error fault →
        ∃ index fault', Parser.FaultAt host s index fault ∧
          Parser.FaultAt host s' index fault' ∧ Parser.parse host s' = .error fault' ∧
          fault'.relocate .forget = fault.relocate .forget := by
  have htokens := Sentence.ofTokens?_forget h
  refine ⟨by simpa using congrArg Option.isSome htokens, ?_⟩
  intro s s' hs hs'
  have heq : s.relocate .forget = s'.relocate .forget := by
    rw [hs, hs'] at htokens
    exact Option.some.inj htokens
  refine ⟨?_, fun p p' hp hp' => ?_, fun host fault hfault => ?_⟩
  · intro stages
    have hstarted : ∀ s, scanned s ≠ .started := nofun
    obtain ⟨hmade, hfault⟩ := run_alike (hstarted s) (hstarted s')
      (congrArg Compilation.scanned heq) source source' stages
    have hfile : (run source stages (.scanned s)).1.file? =
        (run source' stages (.scanned s')).1.file? := by
      rw [← relocate_file? .forget, hmade, relocate_file?]
    have hmessage := congrArg (Option.map fun fault => fault.cause.message) hfault
    simp only [Option.map_map, Function.comp_def, Fault.relocate_cause,
      Cause.relocate_message] at hmessage
    exact ⟨hmade, congrArg _ hfile, hfault, hmessage⟩
  · exact Typing.extend_alike (Program.relocate_eq_of_ofSentence heq hp hp')
  · obtain ⟨index, hat⟩ := Parser.exists_faultAt hfault
    obtain ⟨fault', hat', hsame⟩ := hat.of_relocate_eq heq
    exact ⟨index, fault', hat, hat', hat'.parse_eq, hsame⟩

/-- A variable is declared twice, on one line of a text and on two of another one: both checks
stop for the same cause and have the first declaration on record. -/
theorem Compilation.run_forget_redeclared :
    let words : List Lexeme :=
      [.symbol .varWord, .name "x", .symbol .colon, .symbol .intWord, .symbol .semicolon]
    let declared : Nat → List Token := fun line => words.map (⟨·, ⟨line, 1, "a"⟩⟩)
    let finish : Token := ⟨.finish, ⟨3, 1, "a"⟩⟩
    let tokens := declared 1 ++ declared 1 ++ [finish]
    let tokens' := declared 1 ++ declared 2 ++ [finish]
    tokens.map Token.lexeme = tokens'.map Token.lexeme ∧ tokens ≠ tokens' ∧
      ∃ s s' d d', Sentence.ofTokens? tokens = some s ∧ Sentence.ofTokens? tokens' = some s' ∧
        (@run .unlimited ⟨"a", true, []⟩ 3 (.scanned s)).2 = some d ∧
        (@run .unlimited ⟨"a", true, ['\n']⟩ 3 (.scanned s')).2 = some d' ∧
        d.fault ≠ d'.fault ∧ d.cause.message = d'.cause.message := by
  intro words declared finish tokens tokens'
  have h : tokens.map Token.lexeme = tokens'.map Token.lexeme := rfl
  obtain ⟨-, hsame⟩ := @run_forget .unlimited _ _ h ⟨"a", true, []⟩ ⟨"a", true, ['\n']⟩
  let s : Sentence := ⟨declared 1 ++ declared 1, ⟨3, 1, "a"⟩, by decide⟩
  let s' : Sentence := ⟨declared 1 ++ declared 2, ⟨3, 1, "a"⟩, by decide⟩
  obtain ⟨hrun, -, -⟩ := hsame s s' rfl rfl
  let cause (first : Nat) : Cause := .duplicateVariable "x" (some ⟨first, 1, "a"⟩)
  have hfault : (@run .unlimited ⟨"a", true, []⟩ 3 (.scanned s)).2.map Diagnostic.fault =
      some ((cause 1).fault ⟨1, 1, "a"⟩) := by
    decide +kernel
  have hfault' : (@run .unlimited ⟨"a", true, ['\n']⟩ 3 (.scanned s')).2.map Diagnostic.fault =
      some ((cause 1).fault ⟨2, 1, "a"⟩) := by
    decide +kernel
  obtain ⟨d, hd, hfirst⟩ := Option.map_eq_some_iff.mp hfault
  obtain ⟨d', hd', hsecond⟩ := Option.map_eq_some_iff.mp hfault'
  have hmessage := (hrun 3).2.2.2
  rw [hd, hd'] at hmessage
  refine ⟨h, by decide, s, s', d, d', rfl, rfl, hd, hd', ?_, Option.some.inj hmessage⟩
  rw [hfirst, hsecond]
  decide

end ImpToC
