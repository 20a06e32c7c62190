import ImpToC.Proofs.Faults.Lowering
import ImpToC.Proofs.Literals.Code
import ImpToC.Proofs.Locations
import ImpToC.Proofs.Outline.Reading
import ImpToC.Proofs.Scoping.Names
import ImpToC.Proofs.Staging

/-!
# Ranges of literals

The parser takes whole numbers of 64 bits and finite numbers with 53 significant bits. What it
takes is written in the code so that it can be read back from the text there, whether the types of
C hold it or not.
-/

namespace ImpToC

open Number

/-! ## Bounds -/

theorem Literal.le_of_int? {digits : IntText} {value : Nat} (h : int? digits = some value) :
    value ≤ Nat.pow 2 63 - 1 := by
  unfold int? at h
  dsimp only at h
  split at h
  next hfits =>
    cases h
    exact hfits.2
  next => cases h

namespace Number

/-- The largest number of a format, in units: as many ones as there are significant bits, and the
power of two that the last of them stands for. -/
def largestUnits (significant power : Nat) : Nat := (Nat.pow 2 significant - 1) <<< power

/-- The largest finite number of 64 bits has 53 significant ones up to `2 ^ 1023`. -/
theorem Magnitude.units_le (m : Magnitude) : m.units ≤ largestUnits 53 (1074 + 1023 - 52) :=
  shiftLeft_mono (Nat.le_sub_one_of_lt m.significand_lt) m.grade_le

end Number

/-! ## Texts -/

namespace C

/-- The text of a literal stands for its value: a whole number has its digits there, and what is in
front of the letter of a floating-point number is a decimal that is read as the number. -/
def ReadsBack : Ty × Value → Prop
  | (.int, .int value) =>
    (∀ c ∈ (Value.int value).text.toList, isDigit c = true) ∧
      ofDigits (Value.int value).text.toList = value
  | (.float, .float value) => ∃ decimal, (Value.float value).text.toList = decimal ++ ['f'] ∧
      Binary64.ofText decimal = .finite false value
  | (.string, .string _) => True
  | _ => False

theorem readsBack_of_literal? {e : Expr} {literal : Ty × Value} (h : e.literal? = some literal) :
    ReadsBack literal := by
  cases e with
  | int mark value =>
      cases h
      refine ⟨fun c hc => isDigit_of_mem_toString hc, ?_⟩
      rw [Value.text, toList_toString, ofDigits_digits]
  | float mark value =>
      cases h
      refine ⟨value.text, ?_, Binary64.ofText_text value⟩
      rw [Value.text, String.toList_ofList, floatLiteral_text]
  | string =>
      cases h
      trivial
  | name | negate | binary => cases h

end C

/-! ## Literals of a source -/

namespace C

/-- What a parser takes: whole numbers and floating-point numbers of 64 bits. -/
def InRange : Ty × Value → Prop
  | (.int, .int value) => value ≤ Nat.pow 2 63 - 1
  | (.float, .float value) => value.units ≤ largestUnits 53 (1074 + 1023 - 52)
  | (.string, .string _) => True
  | _ => False

/-- What the types of C hold where an `int` has 32 bits and a `float` is a number of 32 bits. -/
def Held : Ty × Value → Prop
  | (.int, .int value) => value ≤ Nat.pow 2 31 - 1
  | (.float, .float value) => value.units ≤ largestUnits 24 (1074 + 127 - 23)
  | (.string, .string _) => True
  | _ => False

end C

namespace Source

open C

variable {source : Source} {s : Sentence} {p : Program} {t : Typing} {f : File}

/-- A literal of a program is a word of the sentence that the program was read from. -/
theorem exists_atom_of_parse {host : Host} (hparse : Parser.parse host s = .ok p) {e : Expr}
    (he : e ∈ p.expressions) {literal : Ty × Value} (hliteral : e.literal? = some literal) :
    ∃ w ∈ s.words, Expr.Atom e w.lexeme := by
  obtain ⟨seen, hseen, hat⟩ := Parser.exists_seen_of_parse hparse
  have hfound : ∀ m ∈ e.landmark?, ∃ w ∈ s.words, m.At w := by
    intro m hm
    have hmark := p.expressions_sublist_landmarks.subset (List.mem_filterMap.mpr ⟨e, he, hm⟩)
    obtain ⟨w, hw, hshows⟩ := Landmark.exists_mem_of_at hat m hmark
    exact ⟨w, hseen.subset hw, hshows⟩
  cases e with
  | int | float | string =>
      obtain ⟨w, hw, hat⟩ := hfound _ rfl
      exact ⟨w, hw, hat.shows⟩
  | name | negate | binary => cases hliteral

/-- What a word stands for is such as a parser takes. -/
theorem inRange_of_atom {e : Expr} {w : Lexeme} (hatom : Expr.Atom e w)
    {literal : Ty × Value} (hliteral : e.literal? = some literal) : InRange literal := by
  cases hatom with
  | int _ hvalue =>
      cases hliteral
      exact Literal.le_of_int? hvalue
  | float _ hvalue =>
      cases hliteral
      exact Magnitude.units_le _
  | string =>
      cases hliteral
      trivial
  | name => cases hliteral

variable [Host]

/-- A file that a source is compiled to has the literals of the program, each one in its turn as
what a temporary of its type is defined as. -/
theorem literals_of_compile (h : source.compile .codegen = .ok (.generated s p t f)) :
    Instr.literalsAll f.body = p.expressions.filterMap Expr.literal? := by
  obtain ⟨⟨-, hparse, hcheck, g, hgenerate⟩, -⟩ := made_of_compile h
  have hids := (p.expressions_perm.map Expr.id).nodup_iff.mpr (Parser.nodup_ids_of_parse hparse)
  exact (lowered_of_generate hids hcheck hgenerate).literals

/-- A source that gets through one stage after the other is compiled. -/
theorem compile_of_stages (hscan : source.scan = .ok s) (hparse : Program.ofSentence s = .ok p)
    (hcheck : Typing.empty.extend p = (none, t)) (hcode : p.code t.symbols t.types = .ok f) :
    source.compile .codegen = .ok (.generated s p t f) := by
  have hprogram : s.parse source.lines = .ok p := Sentence.parse_eq_ok_iff.mpr hparse
  have htyping : p.typing source.lines = .ok t := Program.typing_eq_ok_iff.mpr hcheck
  rw [compile_eq, hscan]
  simp [hprogram, htyping, hcode]

/-- A source is compiled if its file has some literals, and a line. -/
theorem exists_generated_of_line {literals : List (Ty × Value)} {l : String}
    (h : (((source.compile .codegen).toOption.bind Compilation.file?).map fun f =>
      (Instr.literalsAll f.body, decide (l ∈ f.lines))) = some (literals, true)) :
    ∃ s p t f, source.compile .codegen = .ok (.generated s p t f) ∧
      Instr.literalsAll f.body = literals ∧ l ∈ f.lines := by
  obtain ⟨f, hfile, hboth⟩ := Option.map_eq_some_iff.mp h
  obtain ⟨hliterals, hline⟩ := Prod.mk.inj hboth
  cases hcompile : source.compile .codegen with
  | error d =>
      rw [hcompile] at hfile
      cases hfile
  | ok c =>
      rw [hcompile] at hfile
      cases c with
      | started | scanned | parsed | typed => cases hfile
      | generated s p t f' =>
          cases hfile
          exact ⟨s, p, t, f, rfl, hliterals, of_decide_eq_true hline⟩

/-- Any whole number up to the largest one is printed by a program. -/
theorem exists_parse_print_int (hcalls : ∀ calls ∈ Host.calls, Parser.callsFor 0 ≤ calls) {n : Nat}
    (h : n ≤ Nat.pow 2 63 - 1) (file : String) :
    ∃ s location mark, (Source.mk file true ("print " ++ toString n ++ ";").toList).scan = .ok s ∧
      Program.ofSentence s = .ok ⟨[], [.print location (.int mark n)]⟩ := by
  have hrender : (Expr.int default n).render none = toString n := by
    rw [Expr.render_eq]
    rfl
  have hwritable : (Expr.int default n).Writable := h
  obtain ⟨s, location, value, hscan, hwithin, hpass, hvalue⟩ := exists_pass_print hwritable file
  rw [hrender] at hscan
  cases value with
  | int mark value =>
      cases hvalue
      exact ⟨s, location, mark, hscan, (Parser.parse_eq_pass hwithin hcalls).trans hpass⟩
  | name | float | string | negate | binary => cases hvalue

/-- There is code for it, and the number stands there as it is. -/
theorem exists_compile_print_int (hcalls : ∀ calls ∈ Host.calls, Parser.callsFor 0 ≤ calls)
    {n : Nat} (h : n ≤ Nat.pow 2 63 - 1) (file : String) :
    ∃ s p t f, (Source.mk file true ("print " ++ toString n ++ ";").toList).compile .codegen =
        .ok (.generated s p t f) ∧
      Instr.literalsAll f.body = [(.int, .int n)] := by
  obtain ⟨s, location, mark, hscan, hparse⟩ := exists_parse_print_int hcalls h file
  let p : Program := ⟨[], [.print location (.int mark n)]⟩
  have hexpressions : p.expressions = [.int mark n] := p.expressions_eq_preorderAll
  let t : Typing := ⟨.empty, Table.empty.insert mark.id .int⟩
  have hcheck : Typing.empty.extend p = (none, t) := rfl
  have hcode := p.code_of_check (Parser.nodup_ids_of_parse hparse) hcheck
  cases hresult : p.code t.symbols t.types with
  | error d =>
      rw [hresult, hexpressions] at hcode
      obtain ⟨e, he, hunsupported⟩ := hcode
      cases List.mem_singleton.mp he
      cases hunsupported
  | ok f =>
      have hcompile := compile_of_stages hscan hparse hcheck hresult
      refine ⟨s, p, t, f, hcompile, ?_⟩
      rw [literals_of_compile hcompile, hexpressions]
      rfl

/-- The literals of a program go into C in their order: whole numbers into definitions of temporaries
of the type `int`, and floating-point numbers into those of the type `float`, each in a line of its
own. Each of them is what a word of the sentence was read as, and none is larger than the largest
number of its kind with 64 bits. The text in the line stands for it: a whole number has its digits
there, and a floating-point number is written as a decimal that is read as the same number of 64
bits. That is all: whole numbers up to the largest one are taken and go into C, where an `int` may
hold them or not. -/
theorem compile_literals :
    (∀ (source : Source) s p t f, source.compile .codegen = .ok (.generated s p t f) →
      Instr.literalsAll f.body = p.expressions.filterMap Expr.literal? ∧
      ∀ literal ∈ Instr.literalsAll f.body,
        (∃ w ∈ s.words, ∃ e ∈ p.expressions, Expr.Atom e w.lexeme ∧ e.literal? = some literal) ∧
        InRange literal ∧ ReadsBack literal ∧
        ∃ level index, line level (literal.1.cName ++ " " ++ temporaryName index ++ " = " ++
          literal.2.text ++ ";") ∈ f.lines) ∧
    ((∀ calls ∈ Host.calls, Parser.callsFor 0 ≤ calls) →
      ∀ n ≤ Nat.pow 2 63 - 1, ∀ file, ∃ s p t f,
        (Source.mk file true ("print " ++ toString n ++ ";").toList).compile .codegen =
          .ok (.generated s p t f) ∧
        Instr.literalsAll f.body = [(.int, .int n)]) := by
  refine ⟨fun source s p t f h => ⟨literals_of_compile h, fun literal hliteral => ?_⟩,
    fun hcalls n hn file => exists_compile_print_int hcalls hn file⟩
  have hline := f.exists_line_of_literals hliteral
  rw [literals_of_compile h] at hliteral
  obtain ⟨e, he, hvalue⟩ := List.mem_filterMap.mp hliteral
  obtain ⟨⟨-, hparse, -⟩, -⟩ := made_of_compile h
  obtain ⟨w, hw, hatom⟩ := exists_atom_of_parse hparse he hvalue
  exact ⟨⟨w, hw, e, he, hatom, hvalue⟩, inRange_of_atom hatom hvalue,
    readsBack_of_literal? hvalue, hline⟩

omit [Host] in
/-- A number in a condition and one in a block, and the largest whole number. -/
theorem compile_literals_branch :
    (∃ s p t f, @Source.compile .unlimited ⟨"a", true, "if 007 then print -0.5; end".toList⟩
        .codegen = .ok (.generated s p t f) ∧
      p.expressions.filterMap Expr.literal? =
        [(.int, .int 7), (.float, .float ⟨0x3FE0000000000000, by decide⟩)] ∧
      "        float tmp_2 = 0.5f;" ∈ f.lines ∧
      ∀ literal ∈ Instr.literalsAll f.body, InRange literal ∧ ReadsBack literal) ∧
    ∃ s p t f, @Source.compile .unlimited
        ⟨"a", true, ("print " ++ toString (Nat.pow 2 63 - 1) ++ ";").toList⟩ .codegen =
        .ok (.generated s p t f) ∧
      Instr.literalsAll f.body = [(.int, .int (Nat.pow 2 63 - 1))] := by
  obtain ⟨hall, hlargest⟩ := @compile_literals .unlimited
  refine ⟨?_, hlargest nofun _ (Nat.le_refl _) "a"⟩
  obtain ⟨s, p, t, f, hcompile, hliterals, hline⟩ :=
    @exists_generated_of_line ⟨"a", true, "if 007 then print -0.5; end".toList⟩
      .unlimited [(.int, .int 7), (.float, .float ⟨0x3FE0000000000000, by decide⟩)]
      "        float tmp_2 = 0.5f;" (by decide +kernel)
  obtain ⟨heq, hliteral⟩ := hall _ s p t f hcompile
  refine ⟨s, p, t, f, hcompile, heq ▸ hliterals, hline, fun literal h => ?_⟩
  obtain ⟨-, hrange, hreads, -⟩ := hliteral literal h
  exact ⟨hrange, hreads⟩

omit [Host] in
/-- So there are programs with literals that the types of C do not hold: a whole number of 32 bits
without a sign, and a floating-point number of forty digits. -/
theorem compile_literals_not_held :
    let huge : Number.Magnitude := ⟨0x48078287F49C4A1D, by decide⟩
    (∃ s p t f, @Source.compile .unlimited (Options.standard.source none
        "print 3000000000;".toList) .codegen = .ok (.generated s p t f) ∧
      Instr.literalsAll f.body = [(.int, .int 3000000000)] ∧
      "    int tmp_1 = 3000000000;" ∈ f.lines) ∧
    (∃ s p t f, @Source.compile .unlimited (Options.standard.source none
        "print 1000000000000000000000000000000000000000.0;".toList) .codegen =
        .ok (.generated s p t f) ∧
      Instr.literalsAll f.body = [(.float, .float huge)] ∧
      "    float tmp_1 = 1e+39f;" ∈ f.lines) ∧
    ¬Held (.int, .int 3000000000) ∧ ¬Held (.float, .float huge) ∧
    ¬∀ (source : Source) s p t f,
      @Source.compile .unlimited source .codegen = .ok (.generated s p t f) →
        ∀ literal ∈ Instr.literalsAll f.body, Held literal := by
  intro huge
  have hlarge : ¬Held (.int, .int 3000000000) := by
    change ¬3000000000 ≤ Nat.pow 2 31 - 1
    decide
  have hlarge' : ¬Held (.float, .float huge) := by
    change ¬huge.units ≤ largestUnits 24 (1074 + 127 - 23)
    decide +kernel
  have hint := @exists_generated_of_line
    (Options.standard.source none "print 3000000000;".toList) .unlimited
    [(.int, .int 3000000000)] "    int tmp_1 = 3000000000;" (by decide +kernel)
  have hfloat := @exists_generated_of_line (Options.standard.source none
    "print 1000000000000000000000000000000000000000.0;".toList) .unlimited
    [(.float, .float huge)] "    float tmp_1 = 1e+39f;" (by decide +kernel)
  refine ⟨hint, hfloat, hlarge, hlarge', fun hall => ?_⟩
  obtain ⟨s, p, t, f, hcompile, hliterals, -⟩ := hint
  apply hlarge
  apply hall _ s p t f hcompile
  rw [hliterals]
  exact List.mem_singleton_self _

end Source

end ImpToC
