import ImpToC.Proofs.Faults.Lowering
import ImpToC.Proofs.Lowering.Writers
import ImpToC.Proofs.Outline.Printers
import ImpToC.Proofs.Parsing.Numbers
import ImpToC.Proofs.Typing.Checkers

/-!
# What a compilation can end in

The main statement of this part: a source text is compiled up to the chosen stage, or some
stage finds in it what that stage can find. Parsers, checkers, writers and printers stop for
nothing else: whatever they look up is there, and no conversion to a number turns its text down.
-/

namespace ImpToC

namespace Compilation

variable [Host]

/-- Where a compilation stops, the stage in front of it finds what it can find. -/
theorem Made.exists_finds {source : Source} {c : Compilation} {d : Diagnostic}
    (h : Made source c) (hstop : c.advance source = .error d) :
    ∃ stage : Stage, stage.count = c.passed + 1 ∧ stage.Finds d.cause := by
  have hstage := advance_eq_error_iff.mp hstop
  cases c with
  | started => exact ⟨.scan, rfl, Source.finds_of_scan hstage⟩
  | scanned s =>
      obtain ⟨f, hf, rfl⟩ := Sentence.parse_eq_error_iff.mp hstage
      obtain ⟨index, t, -, hdown⟩ := Parser.exists_turnsDown_of_parse hf
      exact ⟨.parse, rfl, hdown.finds⟩
  | parsed s p =>
      obtain ⟨f, t, hf, rfl⟩ := Program.typing_eq_error_iff.mp hstage
      exact ⟨.typecheck, rfl, Typing.finds_of_extend hf⟩
  | typed s p t =>
      obtain ⟨-, hparse, hcheck⟩ := h
      have hcode := p.code_of_check (Parser.nodup_ids_of_parse hparse) hcheck
      rw [hstage] at hcode
      obtain ⟨e, -, hunsupported⟩ := hcode
      exact ⟨.codegen, rfl, hunsupported.finds⟩
  | generated => exact hstage.elim

end Compilation

/-- What is scanned makes a sentence that ends where the text does, and all tokens before are
words of the lexical grammar. -/
theorem Source.words_of_scan {source : Source} {s : Sentence} (h : source.scan = .ok s) :
    Sentence.ofTokens? s.tokens = some s ∧ ∀ t ∈ s.words, t.lexeme.Word source.strings := by
  have htokenized := Sentence.ofSource_eq_ok_iff.mp h
  exact ⟨s.ofTokens?_tokens, htokenized.word_lexeme⟩

/-! ## What is looked up -/

/-- A parser stops at a mistake, at the token where its reader is then. It never looks for a token
that is not there, and no conversion turns down the text that it is given. -/
theorem Parser.finds_of_read [Host] {s : Sentence} {stop : Stop} {d : Reader}
    (h : read s = .error stop d) :
    ∃ f t, stop = .fault f ∧ s.tokens[d.indexOf f]? = some t ∧ f.location = some t.location ∧
      Stage.parse.Finds f.cause := by
  obtain ⟨f, rfl⟩ := read_stops h
  obtain ⟨t, ht, hdown⟩ := exists_turnsDown_of_read h
  exact ⟨f, t, rfl, ht, hdown.location, hdown.finds⟩

/-- A writer with the types of a program writes its code down, or stops where there is none. -/
theorem C.Writer.generate_eq_code {p : Program} (hids : (p.postorder.map Expr.id).Nodup)
    (symbols : Table String Ty) (types : Table Nat Ty) :
    ((ofTables symbols types).generate p).1 =
      ((p.code symbols types).map File.text).mapError fun d => .fault d.fault := by
  obtain ⟨houtcome, -⟩ := (ofTables symbols types).generate_eq hids
  rw [houtcome, Program.code]
  show (Except.map File.text ((Generator.ofTables symbols types).generate p).1).mapError _ = _
  cases ((Generator.ofTables symbols types).generate p).1 <;> rfl

/-- What becomes of the program of a sentence. Printing it comes to an end, whatever types are
shown. Checking it stops at nothing but a mistake. If it passes the check, the types of all its
expressions are on record, and writing its code stops at nothing but an expression that C has no
counterpart for. -/
structure Program.NothingMissing (p : Program) : Prop where
  print (types : Option (Table Nat Ty)) :
    ((Printer.ofTypes types).print p).1 = .ok (p.render types)
  check : (Checker.empty.check p).1 = (Typing.empty.extend p).1.map Checker.Stop.fault
  record {t : Typing} (h : Typing.empty.extend p = (none, t)) :
    Checker.empty.check p = (none, t.checker) ∧
      ∀ e ∈ p.expressions, ∃ type, t.types.get? e.id = some type
  write {t : Typing} (h : Typing.empty.extend p = (none, t)) :
    ((C.Writer.ofTables t.symbols t.types).generate p).1 =
        ((p.code t.symbols t.types).map C.File.text).mapError (fun d => .fault d.fault) ∧
      ((∃ d, p.code t.symbols t.types = .error d) ↔
        ∃ e ∈ p.expressions, ∃ f, e.Unsupported p.declarations f)

theorem Program.nothingMissing_of_nodup {p : Program} (hids : (p.postorder.map Expr.id).Nodup) :
    p.NothingMissing := by
  have hcheck : Checker.empty.check p = _ := Checker.check_checker hids .empty
  constructor
  case print => exact fun types => Printer.print_eq_render hids (.ofTypes types)
  case check => exact congrArg Prod.fst hcheck
  case record =>
    intro t ht
    obtain ⟨-, -, -, hrecorded⟩ := Typing.check_sound hids (Typing.extend_eq_iff.mp ht)
    rw [ht] at hcheck
    refine ⟨hcheck, fun e he => ?_⟩
    obtain ⟨type, htype, -⟩ := hrecorded e (p.expressions_perm.mem_iff.mp he)
    exact ⟨type, htype⟩
  case write =>
    intro t ht
    refine ⟨C.Writer.generate_eq_code hids t.symbols t.types, ?_⟩
    have hcode := p.code_of_check hids ht
    cases hmade : p.code t.symbols t.types with
    | ok made =>
        rw [hmade] at hcode
        constructor
        · rintro ⟨d, hd⟩
          cases hd
        · rintro ⟨e, he, f, hunsupported⟩
          exact absurd hunsupported (hcode e he f)
    | error d =>
        rw [hmade] at hcode
        obtain ⟨e, he, hunsupported⟩ := hcode
        exact ⟨fun _ => ⟨e, he, _, hunsupported⟩, fun _ => ⟨d, rfl⟩⟩

/-! ## The main statement -/

/-- Compiling a text goes through all stages up to the last one chosen, or some stage up to
there finds in the text what it can find: an illegal character or a string without an end; a
token out of place, a number that cannot be read or too much nesting; a variable declared
again or not at all, or types that do not fit; and a negated string or a difference of
strings, exactly if there is one in the program. What is scanned ends in the end of the text
and has no number but of digits. Reading it stops at nothing but a mistake at one of the tokens:
no token is looked for that is not there, and no conversion to a number is refused. And nothing
is missing that is looked up while its program is checked, written as code and printed. -/
theorem Options.upTo_finds [Host] (o : Options) (file : Option String) (text : List Char) :
    (match Compilation.upTo (o.source file text) o.last with
      | (c, none) => c.passed = o.last.count
      | (c, some d) => ∃ stage : Stage, stage.count = c.passed + 1 ∧
          stage.count ≤ o.last.count ∧ stage.Finds d.cause) ∧
    ∀ s, (o.source file text).scan = .ok s →
      Sentence.ofTokens? s.tokens = some s ∧ (∀ t ∈ s.words, t.lexeme.Word o.strings) ∧
      (∀ stop d, Parser.read s = .error stop d → ∃ f t, stop = .fault f ∧
        s.tokens[d.indexOf f]? = some t ∧ f.location = some t.location ∧
        Stage.parse.Finds f.cause) ∧
      ∀ p, Program.ofSentence s = .ok p → p.NothingMissing := by
  refine ⟨?_, fun s hs => ?_⟩
  · have hcount : Compilation.started.passed + o.last.count ≤ 4 := by cases o.last <;> decide
    have hstart : Compilation.started.Made (o.source file text) := trivial
    have hrun := Compilation.run_outcome hstart hcount
    rw [Compilation.upTo]
    cases hend : Compilation.run (o.source file text) o.last.count .started with
    | mk c stopped =>
        rw [hend, show Compilation.started.passed = 0 from rfl, Nat.zero_add] at hrun
        cases stopped with
        | none => exact hrun.2
        | some d =>
            obtain ⟨hmade, hpassed, hstop⟩ := hrun
            obtain ⟨stage, hstage, hfinds⟩ := hmade.exists_finds hstop
            exact ⟨stage, hstage, by omega, hfinds⟩
  · obtain ⟨htokens, hwords⟩ := Source.words_of_scan hs
    refine ⟨htokens, hwords, fun stop d hread => Parser.finds_of_read hread, fun p hp => ?_⟩
    exact Program.nothingMissing_of_nodup (Parser.nodup_ids_of_parse hp)

/-- The program `print -"a";` goes through all stages but the last one, and writing it stops at the
negated string. -/
theorem Options.upTo_finds_negation :
    ∃ s p t d, (standard.source none "print -\"a\";".toList).scan = .ok s ∧
      @Program.ofSentence .unlimited s = .ok p ∧ Typing.empty.extend p = (none, t) ∧
      @Compilation.upTo .unlimited (standard.source none "print -\"a\";".toList) .codegen =
        (.typed s p t, some d) ∧
      d.cause = .negatedString ∧ Stage.codegen.Finds d.cause ∧
      Checker.empty.check p = (none, t.checker) ∧
      ((C.Writer.ofTables t.symbols t.types).generate p).1 = .error (.fault d.fault) := by
  let source := standard.source none "print -\"a\";".toList
  obtain ⟨hfinds, hstages⟩ := @upTo_finds .unlimited standard none "print -\"a\";".toList
  have hcause : (@Compilation.upTo .unlimited source .codegen).2.map Diagnostic.cause =
      some .negatedString := by decide +kernel
  have hpassed : (@Compilation.upTo .unlimited source .codegen).1.passed = 3 := by decide +kernel
  have hrun := @Compilation.run_outcome source .started .unlimited 4 trivial (by decide)
  cases hend : @Compilation.upTo .unlimited source .codegen with
  | mk c stopped =>
      rw [show @Compilation.run .unlimited source 4 .started = _ from hend] at hrun
      rw [hend] at hcause hpassed
      obtain ⟨d, rfl, hd⟩ := Option.map_eq_some_iff.mp hcause
      obtain ⟨hmade, -, hstop⟩ := hrun
      have hcode := (@Compilation.advance_eq_error_iff source c .unlimited d).mp hstop
      cases c with
      | started | scanned | parsed | generated => cases hpassed
      | typed s p t =>
          obtain ⟨hscan, hparse, hcheck⟩ := hmade
          obtain ⟨-, -, -, hmissing⟩ := hstages s hscan
          have hp := hmissing p hparse
          rw [show standard.last = .codegen from rfl,
            show @Compilation.upTo .unlimited (standard.source none _) .codegen = _ from hend]
            at hfinds
          obtain ⟨stage, hstage, -, hstageFinds⟩ := hfinds
          obtain rfl : stage = .codegen := by
            cases stage with
            | codegen => rfl
            | scan | parse | typecheck => cases hstage
          refine ⟨s, p, t, d, hscan, hparse, hcheck, rfl, hd, hstageFinds, (hp.record hcheck).1, ?_⟩
          rw [(hp.write hcheck).1, show p.code t.symbols t.types = .error d from hcode]
          rfl

end ImpToC
