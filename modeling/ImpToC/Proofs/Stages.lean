import ImpToC.Compilation
import ImpToC.Proofs.Effects
import ImpToC.Proofs.Grammar.Spelling
import ImpToC.Proofs.Parsing.Hosts
import ImpToC.Proofs.Scanning.Tokenized

/-!
# Stages

What each stage of a compilation makes of what there is, when it goes on and when it stops,
and what it takes to reach a stage.
-/

namespace ImpToC

section Outcomes

variable {lines : List (List Char)} {d : Diagnostic}

theorem Program.typing_eq_ok_iff {p : Program} {t : Typing} :
    p.typing lines = .ok t ↔ Typing.empty.extend p = (none, t) := by
  unfold typing
  obtain ⟨_ | f, after⟩ := Typing.empty.extend p <;> simp

theorem Program.typing_eq_error_iff {p : Program} :
    p.typing lines = .error d ↔
      ∃ f t, Typing.empty.extend p = (some f, t) ∧ f.quoting lines = d := by
  unfold typing
  obtain ⟨_ | f, after⟩ := Typing.empty.extend p <;> simp

theorem Program.code_eq_ok_iff {p : Program} {symbols : Table String Ty} {types : Table Nat Ty}
    {file : C.File} :
    p.code symbols types = .ok file ↔
      ∃ g, (C.Generator.ofTables symbols types).generate p = (.ok file, g) := by
  unfold code
  obtain ⟨_ | made, after⟩ := (C.Generator.ofTables symbols types).generate p <;> simp

variable [Host]

theorem Sentence.parse_eq_ok_iff {s : Sentence} {p : Program} :
    s.parse lines = .ok p ↔ Program.ofSentence s = .ok p := by
  unfold parse
  cases Program.ofSentence s <;> simp

theorem Sentence.parse_eq_error_iff {s : Sentence} :
    s.parse lines = .error d ↔ ∃ f, Program.ofSentence s = .error f ∧ f.quoting lines = d := by
  unfold parse
  cases Program.ofSentence s <;> simp

end Outcomes

namespace Compilation

variable {source : Source} {c c' : Compilation}

/-- A stage that goes on with what it has made. -/
theorem bind_pure_eq_ok_iff {α : Type} {x : Except Diagnostic α} {f : α → Compilation} :
    (x >>= fun a => pure (f a)) = .ok c ↔ ∃ a, x = .ok a ∧ f a = c := by
  cases x with
  | error d => exact ⟨nofun, nofun⟩
  | ok a =>
      show Except.ok (f a) = .ok c ↔ _
      simp

theorem bind_pure_eq_error_iff {α : Type} {x : Except Diagnostic α} {f : α → Compilation}
    {d : Diagnostic} : (x >>= fun a => pure (f a)) = .error d ↔ x = .error d := by
  cases x with
  | error d' =>
      show Except.error d' = .error d ↔ _
      simp
  | ok a => exact ⟨nofun, nofun⟩

variable [Host]

/-- What a stage makes of what there is. -/
theorem advance_eq_ok_iff :
    c.advance source = .ok c' ↔
      match c with
      | .started => ∃ s, source.scan = .ok s ∧ .scanned s = c'
      | .scanned s => ∃ p, s.parse source.lines = .ok p ∧ .parsed s p = c'
      | .parsed s p => ∃ t, p.typing source.lines = .ok t ∧ .typed s p t = c'
      | .typed s p t => ∃ f, p.code t.symbols t.types = .ok f ∧ .generated s p t f = c'
      | .generated .. => c = c' := by
  cases c with
  | started | scanned | parsed | typed => exact bind_pure_eq_ok_iff
  | generated => simp [advance, pure, Except.pure]

/-- What stops a stage. -/
theorem advance_eq_error_iff {d : Diagnostic} :
    c.advance source = .error d ↔
      match c with
      | .started => source.scan = .error d
      | .scanned s => s.parse source.lines = .error d
      | .parsed _ p => p.typing source.lines = .error d
      | .typed _ p t => p.code t.symbols t.types = .error d
      | .generated .. => False := by
  cases c with
  | started | scanned | parsed | typed => exact bind_pure_eq_error_iff
  | generated => simp [advance, pure, Except.pure]

theorem run_succ_eq_iff {stages : Nat} :
    run source (stages + 1) c = (c', none) ↔
      ∃ next, c.advance source = .ok next ∧ run source stages next = (c', none) := by
  rw [run]
  cases c.advance source with
  | ok next => simp
  | error d => simp

/-- How many stages a compilation has gone through. -/
def passed : Compilation → Nat
  | .started => 0
  | .scanned _ => 1
  | .parsed .. => 2
  | .typed .. => 3
  | .generated .. => 4

/-- All that a compilation of a source has come by was made by its stages. -/
def Made (source : Source) : Compilation → Prop
  | .started => True
  | .scanned s => source.scan = .ok s
  | .parsed s p => source.scan = .ok s ∧ Program.ofSentence s = .ok p
  | .typed s p t =>
    source.scan = .ok s ∧ Program.ofSentence s = .ok p ∧ Typing.empty.extend p = (none, t)
  | .generated s p t f =>
    source.scan = .ok s ∧ Program.ofSentence s = .ok p ∧ Typing.empty.extend p = (none, t) ∧
      ∃ g, (C.Generator.ofTables t.symbols t.types).generate p = (.ok f, g)

theorem Made.advance (h : Made source c) (hnext : c.advance source = .ok c') : Made source c' := by
  have hstage := advance_eq_ok_iff.mp hnext
  cases c with
  | started =>
      obtain ⟨s, hs, rfl⟩ := hstage
      exact hs
  | scanned s =>
      obtain ⟨p, hp, rfl⟩ := hstage
      exact ⟨h, Sentence.parse_eq_ok_iff.mp hp⟩
  | parsed s p =>
      obtain ⟨t, ht, rfl⟩ := hstage
      exact ⟨h.1, h.2, Program.typing_eq_ok_iff.mp ht⟩
  | typed s p t =>
      obtain ⟨f, hf, rfl⟩ := hstage
      exact ⟨h.1, h.2.1, h.2.2, Program.code_eq_ok_iff.mp hf⟩
  | generated => exact hstage ▸ h

theorem passed_of_advance (h : c.advance source = .ok c') (hpassed : c.passed < 4) :
    c'.passed = c.passed + 1 := by
  have hstage := advance_eq_ok_iff.mp h
  cases c with
  | started | scanned | parsed | typed =>
      obtain ⟨_, -, rfl⟩ := hstage
      rfl
  | generated => exact absurd hpassed (Nat.lt_irrefl 4)

/-- A compilation through some stages passes all of them, or it stops in front of one that
finds a fault. -/
theorem run_outcome {stages : Nat} (h : Made source c) (hstages : c.passed + stages ≤ 4) :
    match run source stages c with
    | (c', none) => Made source c' ∧ c'.passed = c.passed + stages
    | (c', some d) => Made source c' ∧ c'.passed < c.passed + stages ∧
        c'.advance source = .error d := by
  induction stages generalizing c with
  | zero => exact ⟨h, rfl⟩
  | succ stages ih =>
      rw [run]
      cases hnext : c.advance source with
      | error d => exact ⟨h, by omega, hnext⟩
      | ok next =>
          have hpassed := passed_of_advance hnext (by omega)
          have hrest := ih (h.advance hnext) (by omega)
          rw [hpassed, Nat.add_right_comm] at hrest
          exact hrest

end Compilation

namespace Source

variable [Host] {source : Source}

theorem compile_eq_ok_iff {last : Stage} {c : Compilation} :
    source.compile last = .ok c ↔ Compilation.run source last.count .started = (c, none) := by
  rw [compile, Compilation.upTo]
  split <;> simp [*]

/-- What a source is compiled to has gone through all stages up to the last one. -/
theorem made_of_compile {last : Stage} {c : Compilation} (h : source.compile last = .ok c) :
    c.Made source ∧ c.passed = last.count := by
  have hcount : Compilation.started.passed + last.count ≤ 4 := by cases last <;> decide
  have houtcome := Compilation.run_outcome (show Compilation.started.Made source from trivial) hcount
  rw [compile_eq_ok_iff.mp h] at houtcome
  exact ⟨houtcome.1, houtcome.2.trans (Nat.zero_add _)⟩

/-- A source is a program if it makes a sentence and that is one. -/
theorem compile_parse_eq_ok_iff {c : Compilation} :
    source.compile .parse = .ok c ↔
      ∃ s p, source.scan = .ok s ∧ Program.ofSentence s = .ok p ∧ .parsed s p = c := by
  rw [compile_eq_ok_iff, Stage.count]
  simp only [Compilation.run_succ_eq_iff, Compilation.advance_eq_ok_iff]
  constructor
  · rintro ⟨_, ⟨s, hscan, rfl⟩, _, ⟨p, hparse, rfl⟩, hend⟩
    cases hend
    exact ⟨s, p, hscan, Sentence.parse_eq_ok_iff.mp hparse, rfl⟩
  · rintro ⟨s, p, hscan, hparse, rfl⟩
    exact ⟨_, ⟨s, hscan, rfl⟩, _, ⟨p, Sentence.parse_eq_ok_iff.mpr hparse, rfl⟩, rfl⟩

/-- Where a source makes a sentence, parsing it is all that is left. -/
theorem compile_parse_of_scan {s : Sentence} (h : source.scan = .ok s) :
    source.compile .parse = (s.parse source.lines).map (.parsed s) := by
  have hstart : Compilation.started.advance source = .ok (.scanned s) :=
    Compilation.advance_eq_ok_iff.mpr ⟨s, h, rfl⟩
  rw [compile, Compilation.upTo, Stage.count, Compilation.run, hstart]
  simp only [Compilation.run, Compilation.advance]
  cases s.parse source.lines <;> rfl

theorem exists_parsed_of_program? {p : Program}
    (h : (source.compile .parse).toOption.bind Compilation.program? = some p) :
    ∃ s, source.compile .parse = .ok (.parsed s p) := by
  obtain ⟨c, hc, hp⟩ := Option.bind_eq_some_iff.mp h
  cases hcompile : source.compile .parse with
  | error d =>
      rw [hcompile] at hc
      cases hc
  | ok c' =>
      rw [hcompile] at hc
      cases hc
      obtain ⟨s, q, -, -, rfl⟩ := compile_parse_eq_ok_iff.mp hcompile
      cases hp
      exact ⟨s, rfl⟩

/-- The names and strings of a program that is read from a source are words. -/
theorem spelt_of_parse {s : Sentence} {p : Program} (hscan : source.scan = .ok s)
    (hparse : Program.ofSentence s = .ok p) : p.Spelt source.strings := by
  refine (Parser.written_of_pass (Parser.pass_of_parse hparse)).spelt fun w hw => ?_
  obtain ⟨t, ht, rfl⟩ := List.mem_map.mp hw
  exact (Sentence.ofSource_eq_ok_iff.mp hscan).word_lexeme t ht

end Source

end ImpToC
