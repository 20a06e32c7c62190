import ImpToC.Proofs.Faults.Sources
import ImpToC.Proofs.Numeric.Typing
import ImpToC.Proofs.Parsing.Numbers
import ImpToC.Proofs.Scoping.Files

/-!
# Sources without strings

Only the scanner knows whether the language has strings. Where it has none, no word is about
them, so no program that is read from the words is, nothing on record, and no file of C.
-/

namespace ImpToC

/-! ## Words -/

namespace Cursor

variable {strings : Bool} {c c' : Cursor} {t : Token}

/-- Whatever is read is a word of the language or the end of the text. -/
theorem word_of_next (h : c.next strings = (.ok t, c')) :
    t.lexeme.Word strings ∨ t.lexeme = .finish := by
  unfold next at h
  dsimp only at h
  split at h
  next lexeme hread =>
    cases h
    by_cases hfinish : lexeme = .finish
    · exact .inr hfinish
    · exact .inl (Lexeme.word_of_readAt (Lexeme.readAt_ne_nil hread hfinish) hread).1
  next => cases h

/-- However often reading is tried again, behind a fault as well. -/
theorem word_of_mem_attempts {count : Nat} (h : .ok t ∈ c.attempts strings count) :
    t.lexeme.Word strings ∨ t.lexeme = .finish := by
  induction count generalizing c with
  | zero => cases h
  | succ count ih =>
      rcases List.mem_cons.mp h with hfirst | hrest
      · exact word_of_next (Prod.ext hfirst.symm rfl)
      · exact ih hrest

/-- What has been scanned in front of a fault, or of the end, are words of the language. -/
theorem word_of_mem_scan (h : t ∈ (c.scan strings).words) : t.lexeme.Word strings := by
  induction c using Cursor.scan.induct strings with
  | case1 c d c' hnext =>
      rw [scan_of_next_error hnext] at h
      cases h
  | case2 c t' c' hnext hfinish =>
      rw [scan_of_next hnext, if_pos hfinish] at h
      cases h
  | case3 c t' c' hnext hfinish ih =>
      rw [scan_of_next hnext, if_neg hfinish] at h
      rcases List.mem_cons.mp h with rfl | hrest
      · exact (word_of_next hnext).resolve_right hfinish
      · exact ih hrest

end Cursor

/-! ## Programs -/

theorem Expr.Spelt.of_mem_postorder {strings : Bool} {e sub : Expr} (h : e.Spelt strings)
    (hsub : sub ∈ e.postorder) : sub.Spelt strings := by
  induction e with
  | name | int | float | string => exact List.mem_singleton.mp hsub ▸ h
  | negate mark operand ih =>
      rcases List.mem_append.mp hsub with hoperand | hself
      · exact ih h hoperand
      · exact List.mem_singleton.mp hself ▸ h
  | binary mark op left right ihleft ihright =>
      rcases List.mem_append.mp hsub with hoperands | hself
      · exact (List.mem_append.mp hoperands).elim (ihleft h.1) (ihright h.2)
      · exact List.mem_singleton.mp hself ▸ h

mutual

theorem Stmt.Spelt.of_mem_postorder {strings : Bool} {sub : Expr} :
    ∀ s : Stmt, s.Spelt strings → sub ∈ s.postorder → sub.Spelt strings
  | .read .., _, hsub => nomatch hsub
  | .print _ _, h, hsub => Expr.Spelt.of_mem_postorder h hsub
  | .assign _ _ _, h, hsub => Expr.Spelt.of_mem_postorder h.2 hsub
  | .branch _ _ yes no, h, hsub => by
      rcases List.mem_append.mp hsub with hfront | hno
      · exact (List.mem_append.mp hfront).elim (Expr.Spelt.of_mem_postorder h.1)
          (SpeltAll.of_mem_postorder yes h.2.1)
      · exact SpeltAll.of_mem_postorder no h.2.2 hno
  | .loop _ _ body, h, hsub =>
      (List.mem_append.mp hsub).elim (Expr.Spelt.of_mem_postorder h.1)
        (SpeltAll.of_mem_postorder body h.2)

theorem Stmt.SpeltAll.of_mem_postorder {strings : Bool} {sub : Expr} :
    ∀ statements : List Stmt, Stmt.SpeltAll strings statements →
      sub ∈ Stmt.postorderAll statements → sub.Spelt strings
  | [], _, hsub => nomatch hsub
  | s :: rest, h, hsub =>
      (List.mem_append.mp hsub).elim (Spelt.of_mem_postorder s h.1)
        (SpeltAll.of_mem_postorder rest h.2)

end

theorem Program.Spelt.of_mem_expressions {strings : Bool} {p : Program} {e : Expr}
    (h : p.Spelt strings) (he : e ∈ p.expressions) : e.Spelt strings :=
  Stmt.SpeltAll.of_mem_postorder p.statements h.2 (p.expressions_perm.mem_iff.mp he)

/-- Written without the name of their type, a program declares no string. -/
theorem Program.Written.type_ne_string {p : Program} {words : List Lexeme} (h : p.Written words)
    (hwords : ∀ w ∈ words, w.Word false) : ∀ d ∈ p.declarations, d.type ≠ .string := by
  obtain ⟨after, -, rfl⟩ := h
  intro d hd htype
  have hmem : .symbol d.type.symbol ∈ p.declarations.flatMap Declaration.words :=
    List.mem_flatMap.mpr ⟨d, hd, by simp [Declaration.words]⟩
  have hword := hwords _ (List.mem_append_left _ hmem)
  rw [htype] at hword
  exact hword.kind_ne_string.2 rfl

/-- C has a counterpart for every expression without strings. -/
theorem Expr.Spelt.supported {declared : List Declaration} {e : Expr} {f : Fault}
    (hdeclared : ∀ d ∈ declared, d.type ≠ .string) (h : e.Spelt false) :
    ¬ e.Unsupported declared f := by
  rintro (⟨_, hoperand⟩ | ⟨_, hleft, _⟩)
  · exact hoperand.ne_string hdeclared h rfl
  · exact hleft.ne_string hdeclared h.1 rfl

namespace C

/-! ## Files -/

/-- A line in a block starts with a blank. -/
theorem head?_line (level : Nat) (text : String) :
    (line (level + 1) text).toList.head? = some ' ' := by
  simp [line, Nat.mul_succ, List.replicate_succ]

mutual

theorem Instr.head?_lines {level : Nat} {l : String} : ∀ i : Instr,
    l ∈ i.lines (level + 1) → l.toList.head? = some ' '
  | .define .., h | .assign .., h | .print .., h | .scan .., h | .scanString .., h
  | .leaveUnless .., h => List.mem_singleton.mp h ▸ head?_line level _
  | .branch _ yes no, h => by
      simp only [Instr.lines, List.mem_append, List.mem_cons, List.not_mem_nil, or_false] at h
      rcases h with ((rfl | hyes) | hno) | rfl
      · exact head?_line level _
      · exact Instr.head?_linesAll yes hyes
      · split at hno
        · cases hno
        · rcases List.mem_cons.mp hno with rfl | hno
          · exact head?_line level _
          · exact Instr.head?_linesAll no hno
      · exact head?_line level _
  | .loop body, h => by
      simp only [Instr.lines, List.mem_append, List.mem_cons, List.not_mem_nil, or_false] at h
      rcases h with (rfl | hbody) | rfl
      · exact head?_line level _
      · exact Instr.head?_linesAll body hbody
      · exact head?_line level _

theorem Instr.head?_linesAll {level : Nat} {l : String} : ∀ code : List Instr,
    l ∈ Instr.linesAll (level + 1) code → l.toList.head? = some ' '
  | [], h => nomatch h
  | i :: rest, h =>
      (List.mem_append.mp h).elim (Instr.head?_lines i) (Instr.head?_linesAll rest)

end

/-- Nothing of a file of C is about strings: it has no functions for them, and no line for the
compiler but the one for input and output. -/
structure File.Numeric (f : File) : Prop where
  usesStrings : f.usesStrings = false
  headers : ∀ l ∈ f.lines, l.toList.head? = some '#' → l = "#include <stdio.h>"
  helpers : ∀ x ∈ helperNames, .name x ∉ words f.text.toList

theorem File.head?_bodyLines {f : File} {l : String} (h : l ∈ f.bodyLines) :
    l = "" ∨ l.toList.head? = some ' ' := by
  simp only [bodyLines, List.mem_append, List.mem_map, List.mem_singleton] at h
  rcases h with ((⟨v, -, rfl⟩ | hgap) | hcode) | rfl
  · exact .inr (head?_line 0 _)
  · split at hgap
    · cases hgap
    · exact .inl (List.mem_singleton.mp hgap)
  · exact .inr (Instr.head?_linesAll f.body hcode)
  · exact .inr (head?_line 0 _)

/-- Without strings there is one header. -/
theorem File.headers_of_usesStrings {f : File} (h : f.usesStrings = false) :
    ∀ l ∈ f.lines, l.toList.head? = some '#' → l = "#include <stdio.h>" := by
  have hfront : ∀ l ∈ preamble false ++ ["int main(void)", "\x7b"] ++ ["\x7d"],
      l.toList.head? = some '#' → l = "#include <stdio.h>" := by decide
  intro l hl hhead
  simp only [f.lines_eq, h, List.mem_append] at hl
  rcases hl with (hl | hbody) | hl
  · exact hfront l (List.mem_append_left _ (List.mem_append.mpr hl)) hhead
  · rcases head?_bodyLines hbody with rfl | hblank
    · cases hhead
    · cases hblank.symm.trans hhead
  · exact hfront l (List.mem_append_right _ hl) hhead

/-- The file for a program whose tables have no strings has nothing to do with them. -/
theorem Lowered.numeric {p : Program} {t : Typing} {f : File} {g : Generator}
    (h : Lowered p f (.ofTables t.symbols t.types) g) (ht : t.Numeric)
    (hnames : ∀ d ∈ p.declarations, ∀ c ∈ d.name.toList, isNamePart c = true) : f.Numeric := by
  have husesStrings : f.usesStrings = false := by
    rw [h.usesStrings, Bool.or_eq_false_iff]
    exact ⟨by simpa [Generator.ofTables] using ht.symbols,
      by simpa [Generator.ofTables] using ht.types⟩
  refine ⟨husesStrings, f.headers_of_usesStrings husesStrings, fun x hx hmem => ?_⟩
  have hscoped := h.wellScoped hnames
  rw [husesStrings] at hscoped
  have hfront : ∀ x ∈ helperNames, .name x ∉ words (textOf (preamble false)) ++ mainHead := by
    decide +kernel
  rw [hscoped.split, List.mem_append] at hmem
  rcases hmem with hmem | hmem
  · exact hfront x hx hmem
  · have hbody : .name x ∈ words (textOf f.bodyLines) := by simpa using hmem
    -- A helper that is named would bring its headers with it.
    exact absurd (hscoped.helpers x hx hbody).1 (by decide)

end C

/-! ## Sources -/

namespace Source

variable [Host] {source : Source} {s : Sentence} {p : Program} {t : Typing}

/-- A program that is read in the language without strings has none in it. -/
theorem numeric_of_parse (hstrings : source.strings = false) (hscan : source.scan = .ok s)
    (hparse : Program.ofSentence s = .ok p) :
    p.Spelt false ∧ ∀ d ∈ p.declarations, d.type ≠ .string := by
  have hwords : ∀ w ∈ s.words.map Token.lexeme, w.Word false := by
    intro w hw
    obtain ⟨t, ht, rfl⟩ := List.mem_map.mp hw
    exact hstrings ▸ (words_of_scan hscan).2 t ht
  have hwritten := Parser.written_of_pass (Parser.pass_of_parse hparse)
  exact ⟨hwritten.spelt hwords, hwritten.type_ne_string hwords⟩

/-- If it passes the check there is code for it. -/
theorem exists_code_of_check (hstrings : source.strings = false) (hscan : source.scan = .ok s)
    (hparse : Program.ofSentence s = .ok p) (hcheck : Typing.empty.extend p = (none, t)) :
    ∃ f, p.code t.symbols t.types = .ok f ∧ f.Numeric := by
  obtain ⟨hspelt, htypes⟩ := numeric_of_parse hstrings hscan hparse
  have hids := Parser.nodup_ids_of_parse hparse
  have hcode := p.code_of_check hids hcheck
  cases hresult : p.code t.symbols t.types with
  | error d =>
      rw [hresult] at hcode
      obtain ⟨e, he, hunsupported⟩ := hcode
      exact absurd hunsupported ((hspelt.of_mem_expressions he).supported htypes)
  | ok f =>
      obtain ⟨g, hgenerate⟩ := Program.code_eq_ok_iff.mp hresult
      have hlowered := C.lowered_of_generate
        ((p.expressions_perm.map Expr.id).nodup_iff.mpr hids) hcheck hgenerate
      have hnumeric := (Typing.numeric_of_extend Typing.numeric_empty hspelt htypes hcheck).1
      exact ⟨f, rfl, hlowered.numeric hnumeric fun d hd => (hspelt.1 d hd).isNamePart_of_name⟩

/-- In the language without strings, no string and no name of their type is ever read from a
text, neither in front of a fault nor behind one. A program that is read has no strings and
no variables for them. None are on record then, wherever the check stops, and it does not stop
at operands that do not fit. If it does not stop there is a file of C, which has no functions
for strings and not their header. -/
theorem compiles_without_strings (hstrings : source.strings = false) :
    (∀ count t, .ok t ∈ (Cursor.start source.file source.text).attempts source.strings count →
      t.kind ≠ .string ∧ t.kind ≠ .symbol .stringWord) ∧
    (∀ t ∈ ((Cursor.start source.file source.text).scan source.strings).words,
      t.kind ≠ .string ∧ t.kind ≠ .symbol .stringWord) ∧
    ∀ s p, source.scan = .ok s → Program.ofSentence s = .ok p →
      (∀ d ∈ p.declarations, d.type ≠ .string) ∧
      (∀ e ∈ p.expressions, ∀ mark text, e ≠ .string mark text) ∧
      ∀ fault t, Typing.empty.extend p = (fault, t) →
        .string ∉ t.symbols.values ∧ .string ∉ t.types.values ∧
        (∀ f ∈ fault, ∀ op left right, f.cause ≠ .illTypedOperation op left right) ∧
        (fault = none → ∃ file, p.code t.symbols t.types = .ok file ∧ file.usesStrings = false ∧
          "#include <string.h>" ∉ file.lines ∧
          ∀ x ∈ C.helperNames, .name x ∉ C.words file.text.toList) := by
  rw [hstrings]
  refine ⟨fun count t ht => ?_, fun t ht => (Cursor.word_of_mem_scan ht).kind_ne_string,
    fun s p hscan hparse => ?_⟩
  · rcases Cursor.word_of_mem_attempts ht with hword | hfinish
    · exact hword.kind_ne_string
    · simp [Token.kind, hfinish, Lexeme.kind]
  obtain ⟨hspelt, htypes⟩ := numeric_of_parse hstrings hscan hparse
  refine ⟨htypes, ?_, fun fault t hcheck => ?_⟩
  · rintro e he mark text rfl
    exact (Lexeme.Word.kind_ne_string (hspelt.of_mem_expressions he)).1 rfl
  obtain ⟨hnumeric, hfault⟩ :=
    Typing.numeric_of_extend Typing.numeric_empty hspelt htypes hcheck
  refine ⟨hnumeric.symbols, hnumeric.types, hfault, ?_⟩
  rintro rfl
  obtain ⟨file, hcode, hfile⟩ := exists_code_of_check hstrings hscan hparse hcheck
  refine ⟨file, hcode, hfile.usesStrings, fun hmem => ?_, hfile.helpers⟩
  exact absurd (hfile.headers _ hmem rfl) (by decide)

omit [Host] in
/-- The text `var x : int; x = 3; print -(x - 1) * 0.5;` has no strings. -/
theorem compiles_without_strings_product :
    let source : Source := ⟨"<input>", false, "var x : int; x = 3; print -(x - 1) * 0.5;".toList⟩
    ∃ s p t file, source.scan = .ok s ∧ @Program.ofSentence .unlimited s = .ok p ∧
      Typing.empty.extend p = (none, t) ∧ p.code t.symbols t.types = .ok file ∧
      file.usesStrings = false := by
  intro source
  obtain ⟨-, -, hprograms⟩ := @compiles_without_strings .unlimited source rfl
  have hchecked : (@compile .unlimited source .typecheck).isOk = true := by decide +kernel
  cases hcompile : @compile .unlimited source .typecheck with
  | error d =>
      rw [hcompile] at hchecked
      cases hchecked
  | ok c =>
      obtain ⟨hmade, hpassed⟩ := @made_of_compile .unlimited _ _ _ hcompile
      cases c with
      | started | scanned | parsed | generated => cases hpassed
      | typed s p t =>
          obtain ⟨hscan, hparse, hcheck⟩ := hmade
          obtain ⟨-, -, htables⟩ := hprograms s p hscan hparse
          obtain ⟨-, -, -, hfile⟩ := htables none t hcheck
          obtain ⟨file, hcode, husesStrings, -⟩ := hfile rfl
          exact ⟨s, p, t, file, hscan, hparse, hcheck, hcode, husesStrings⟩

end Source

end ImpToC
