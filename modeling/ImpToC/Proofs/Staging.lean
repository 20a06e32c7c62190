import ImpToC.Compilation.Result
import ImpToC.Proofs.Faults.Sources

/-!
# Compiling stage by stage

A compilation up to a later stage begins with the one up to an earlier stage: it has the same
to show for the stages of that one, or it stops at the same mistake. And it comes to the same
as the stages used on their own, one after the other.
-/

namespace ImpToC

namespace Compilation

variable {source : Source} {file : String} {c c' : Compilation}

/-! ## Going on from an earlier stage -/

variable [Host]

/-- To go through some stages and then through others is to go through all of them. -/
theorem run_add (source : Source) (first second : Nat) (c : Compilation) :
    run source (first + second) c =
      match run source first c with
      | (c', none) => run source second c'
      | (c', some d) => (c', some d) := by
  induction first generalizing c with
  | zero => rw [Nat.zero_add, run]
  | succ first ih =>
      rw [Nat.succ_add, run, run]
      cases c.advance source with
      | ok next => exact ih next
      | error d => rfl

/-- A compilation that a mistake stops comes just as far if it is to go on to a later stage. -/
theorem upTo_later_of_error {earlier later : Stage} (hstages : earlier.count ≤ later.count)
    {d : Diagnostic} (h : upTo source earlier = (c, some d)) :
    upTo source later = (c, some d) := by
  obtain ⟨further, hfurther⟩ := Nat.exists_eq_add_of_le hstages
  unfold upTo at h ⊢
  rw [hfurther, run_add, h]

theorem passed_le_of_advance (h : c.advance source = .ok c') : c.passed ≤ c'.passed := by
  have hmade := advance_eq_ok_iff.mp h
  cases c with
  | started | scanned | parsed | typed =>
      obtain ⟨_, -, rfl⟩ := hmade
      exact Nat.le_succ _
  | generated => exact hmade ▸ Nat.le_refl _

/-- A stage changes nothing that the stages before it have to show. -/
theorem upTo_result_of_advance {stage : Stage} (h : c.advance source = .ok c')
    (hstage : stage.count ≤ c.passed) :
    (c'.result file).upTo stage = (c.result file).upTo stage := by
  have hmade := advance_eq_ok_iff.mp h
  cases c with
  | started | scanned | parsed | typed =>
      obtain ⟨_, -, rfl⟩ := hmade
      cases stage <;> first | rfl | simp [passed, Stage.count] at hstage
  | generated => rw [hmade]

/-- Nor do some stages in turn. -/
theorem upTo_result_of_run {stage : Stage} {stages : Nat} (h : run source stages c = (c', none))
    (hstage : stage.count ≤ c.passed) :
    (c'.result file).upTo stage = (c.result file).upTo stage := by
  induction stages generalizing c with
  | zero =>
      cases h
      rfl
  | succ stages ih =>
      obtain ⟨next, hnext, hrest⟩ := run_succ_eq_iff.mp h
      rw [ih hrest (Nat.le_trans hstage (passed_le_of_advance hnext)),
        upTo_result_of_advance hnext hstage]

omit [Host] in
/-- A compilation has nothing to show for the stages that it has not gone through. -/
theorem upTo_result {stage : Stage} (h : c.passed = stage.count) :
    (c.result file).upTo stage = c.result file := by
  cases stage <;> cases c <;> first | rfl | cases h

end Compilation

namespace Source

variable {source : Source} {earlier later : Stage}

theorem exists_count_eq_add (h : earlier.count < later.count) :
    ∃ further, later.count = earlier.count + further :=
  ⟨later.count - earlier.count, by omega⟩

variable [Host]

/-- A source that is compiled up to a later stage is compiled up to an earlier one, with the
same to show as far as that goes. -/
theorem exists_compile_earlier (hstages : earlier.count < later.count) {c : Compilation}
    (h : source.compile later = .ok c) :
    ∃ c', source.compile earlier = .ok c' ∧
      ∀ file, c'.result file = (c.result file).upTo earlier := by
  obtain ⟨further, hfurther⟩ := exists_count_eq_add hstages
  rw [compile_eq_ok_iff, hfurther, Compilation.run_add] at h
  split at h
  next c' hrun =>
    have hcompile := compile_eq_ok_iff.mpr hrun
    have hpassed := (made_of_compile hcompile).2
    refine ⟨c', hcompile, fun file => ?_⟩
    rw [Compilation.upTo_result_of_run h (Nat.le_of_eq hpassed.symm),
      Compilation.upTo_result hpassed]
  next => cases h

theorem compile_eq_error_iff {last : Stage} {d : Diagnostic} :
    source.compile last = .error d ↔ ∃ c, Compilation.upTo source last = (c, some d) := by
  unfold compile
  cases Compilation.upTo source last with
  | mk c stopped => cases stopped <;> simp

/-- A source goes through all stages up to the last one, or a mistake stops it on the way. -/
theorem compile_cases (source : Source) (last : Stage) :
    (∃ c, Compilation.upTo source last = (c, none) ∧ source.compile last = .ok c) ∨
      ∃ c d, Compilation.upTo source last = (c, some d) ∧ source.compile last = .error d := by
  cases hrun : Compilation.upTo source last with
  | mk c stopped =>
      cases stopped with
      | none => exact .inl ⟨c, rfl, compile_eq_ok_iff.mpr hrun⟩
      | some d => exact .inr ⟨c, d, rfl, compile_eq_error_iff.mpr ⟨c, hrun⟩⟩

/-- A mistake that stops a source at an earlier stage stops it in front of a later one. -/
theorem compile_later_eq_error (hstages : earlier.count < later.count) {d : Diagnostic}
    (h : source.compile earlier = .error d) : source.compile later = .error d := by
  obtain ⟨c, hc⟩ := compile_eq_error_iff.mp h
  exact compile_eq_error_iff.mpr
    ⟨c, Compilation.upTo_later_of_error (Nat.le_of_lt hstages) hc⟩

/-- To compile up to a stage is to compile up to the one in front of it and to advance. -/
theorem compile_next (source : Source) {earlier later : Stage}
    (hnext : later.count = earlier.count + 1) :
    source.compile later = source.compile earlier >>= Compilation.advance source := by
  rw [compile, compile, Compilation.upTo, Compilation.upTo, hnext, Compilation.run_add]
  cases Compilation.run source earlier.count .started with
  | mk c stopped =>
      cases stopped with
      | some d => rfl
      | none =>
          simp only [Compilation.run]
          show _ = c.advance source
          cases c.advance source <;> rfl

/-- The way of a source through the stages, written out. -/
theorem compile_eq (source : Source) (last : Stage) :
    source.compile last = (do
      let s ← source.scan
      if last = .scan then return .scanned s
      let p ← s.parse source.lines
      if last = .parse then return .parsed s p
      let t ← p.typing source.lines
      if last = .typecheck then return .typed s p t
      let f ← p.code t.symbols t.types
      return .generated s p t f) := by
  have hscan : source.compile .scan = Compilation.started.advance source := by
    rw [compile, Compilation.upTo, Stage.count, Compilation.run]
    cases Compilation.started.advance source <;> rfl
  have hparse : source.compile .parse = source.compile .scan >>= _ := source.compile_next rfl
  have htypecheck : source.compile .typecheck = source.compile .parse >>= _ :=
    source.compile_next rfl
  have hcodegen : source.compile .codegen = source.compile .typecheck >>= _ :=
    source.compile_next rfl
  cases last <;> simp [hcodegen, htypecheck, hparse, hscan, Compilation.advance]

/-- The parser takes the tokens of a text for the sentence that was scanned. -/
theorem programOf_tokens {s : Sentence} (h : source.scan = .ok s) :
    Stage.programOf (some source.text) s.tokens = (s.parse source.lines).mapError .mistake := by
  rw [Stage.programOf, (words_of_scan h).1]
  rfl

/-- The stages used on their own, one after the other, come to the same. -/
theorem compile_eq_compose (source : Source) (last : Stage) :
    ((source.compile last).map (Compilation.result source.file)).mapError .mistake =
      Stage.compose source.file source.strings source.text last := by
  have htokens : Stage.tokensOf source.file source.strings source.text =
      (source.scan.map Sentence.tokens).mapError .mistake := rfl
  have htypes (p : Program) : Stage.typesOf (some source.text) p =
      ((p.typing source.lines).map fun t => (t.symbols, t.types)).mapError .mistake := rfl
  rw [compile_eq, Stage.compose, htokens]
  simp only [htypes, Stage.codeOf]
  cases hs : source.scan with
  | error d => rfl
  | ok s =>
      simp only [Except.map, Except.mapError, bind, Except.bind, programOf_tokens hs]
      cases s.parse source.lines with
      | error d => cases last <;> rfl
      | ok p =>
          dsimp only
          cases p.typing source.lines with
          | error d => cases last <;> rfl
          | ok t =>
              dsimp only
              cases p.code t.symbols t.types <;> cases last <;> rfl

end Source

namespace Options

variable (o : Options) (file : Option String) (text : List Char)

/-- A text that is given a name keeps it, unless it is empty; else it has the name that the
options choose. -/
theorem source_file : (o.source file text).file =
    ((file.filter fun name => name ≠ "").getD o.file) := by
  cases file with
  | none => rfl
  | some name =>
      unfold source
      by_cases hname : name = "" <;> simp [Option.filter, hname]

/-- Of two compilations of a text, the one up to the earlier stage comes first. If the one up
to the later stage has something to show, so has the other: the same for the stages that it
goes through, and nothing for those behind. If a mistake stops the one up to the earlier
stage, it stops the other as well. And each comes to what the stages used on their own come
to, one after the other, the first mistake included. -/
theorem compile_stages [Host] (o : Options) (file : Option String) (text : List Char) :
    let name := (file.filter fun name => name ≠ "").getD o.file
    let upTo (last : Stage) := { o with last }.compile file text
    (∀ earlier later : Stage, earlier.count < later.count →
      (∀ r, upTo later = .ok r → r.file = name ∧ upTo earlier = .ok (r.upTo earlier)) ∧
      ∀ d, upTo earlier = .error d → upTo later = .error d) ∧
    ∀ last, (upTo last).mapError .mistake = Stage.compose name o.strings text last := by
  intro name upTo
  have hname : (o.source file text).file = name := source_file o file text
  have hupTo (last : Stage) : upTo last =
      ((o.source file text).compile last).map (Compilation.result name) := by
    rw [← hname]
    rfl
  refine ⟨fun earlier later hstages => ⟨fun r hr => ?_, fun d hd => ?_⟩, fun last => ?_⟩
  · rw [hupTo] at hr ⊢
    cases hlater : (o.source file text).compile later with
    | error d =>
        rw [hlater] at hr
        cases hr
    | ok c =>
        rw [hlater] at hr
        cases hr
        obtain ⟨c', hearlier, hresult⟩ := Source.exists_compile_earlier hstages hlater
        rw [hearlier]
        exact ⟨rfl, congrArg Except.ok (hresult name)⟩
  · rw [hupTo] at hd ⊢
    cases hearlier : (o.source file text).compile earlier with
    | error d' =>
        rw [hearlier] at hd
        cases hd
        rw [Source.compile_later_eq_error hstages hearlier]
        rfl
    | ok c =>
        rw [hearlier] at hd
        cases hd
  · rw [hupTo, ← hname]
    exact Source.compile_eq_compose (o.source file text) last

end Options

end ImpToC
