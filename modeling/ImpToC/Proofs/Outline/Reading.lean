import ImpToC.Proofs.Number.Texts
import ImpToC.Proofs.Outline.Texts
import ImpToC.Proofs.Parsing.Nesting
import ImpToC.Proofs.Parsing.Trees
import ImpToC.Proofs.Stages

/-!
# Texts of expressions read back

The text of an expression is made of words of the language. They are words of this expression
in the grammar, where its parentheses keep every operation apart, and no words of another one.
So the text, printed by a statement, is read as the expression.
-/

namespace ImpToC

open Grammar Number

/-! ## Literals of numbers -/

theorem Literal.int?_digits {n : Nat} (h : n ≤ largestInt) :
    int? (.ofDigits (digits n) fun _ => isDigit_of_mem_digits) = some n := by
  have hvalue : ofDigits ((digits n).dropWhile (· = '0')) = n := by
    rw [ofDigits_dropZeros, ofDigits_digits]
  have hlength : ((digits n).dropWhile (· = '0')).length ≤ (digits largestInt).length := by
    refine Nat.le_trans (List.dropWhile_suffix _).length_le ?_
    have hpos := List.length_pos_iff.mpr (digits_ne_nil largestInt)
    exact (length_digits_le_iff hpos).mpr (Nat.lt_of_le_of_lt h (lt_tenTo_length_digits _))
  rw [int?, IntText.ofDigits_text, String.toList_ofList]
  simp only [hvalue]
  exact if_pos ⟨hlength, h⟩

theorem Number.Magnitude.isDecimal_text {m : Magnitude} (h : 'e' ∉ m.text) :
    isDecimal m.text = true := by
  obtain ⟨⟨whole, fraction, htext, -, hdigits⟩, -⟩ := isPlain_text h
  rw [List.forall_mem_append] at hdigits
  exact htext ▸ isDecimal_point hdigits.1 hdigits.2

/-- A number that is written without an exponent, as a literal. -/
def Number.Magnitude.literal (m : Magnitude) (h : 'e' ∉ m.text) : FloatText :=
  ⟨String.ofList m.text, by simpa using isDecimal_text h⟩

theorem Number.Magnitude.spelling_literal (m : Magnitude) (h : 'e' ∉ m.text) :
    (Lexeme.float (m.literal h)).spelling = m.text := String.toList_ofList

theorem Literal.float?_literal {m : Magnitude} (h : 'e' ∉ m.text) :
    float? (m.literal h) = some m := by
  obtain ⟨⟨whole, fraction, htext, ⟨-, hne⟩, hdigits⟩, hvalue⟩ := Magnitude.isPlain_text h
  have hlast : m.text.getLast? ≠ some '.' := by
    obtain ⟨front, c, rfl⟩ : ∃ front c, fraction = front ++ [c] :=
      ⟨_, _, (List.dropLast_concat_getLast hne).symm⟩
    rw [htext, ← List.cons_append, ← List.append_assoc, List.getLast?_concat]
    rintro ⟨⟩
    cases hdigits '.' (by simp)
  rw [float?, Magnitude.literal, String.toList_ofList, if_neg hlast, hvalue]

namespace Expr

/-- An expression that can be written in a source text: its names and strings are words of the
language with strings, its whole numbers are not too large, and its floating-point numbers are
written without an exponent. -/
def Writable : Expr → Prop
  | .name _ text => Lexeme.Word true (.name text)
  | .int _ value => value ≤ Literal.largestInt
  | .float _ value => 'e' ∉ value.text
  | .string _ text => ∀ c ∈ text.toList, isStringPart c = true
  | .negate _ operand => operand.Writable
  | .binary _ _ left right => left.Writable ∧ right.Writable

/-- How many parentheses and negations are open at once in the text of an expression, where a
negation stands in parentheses of its own. -/
def nesting : Expr → Nat
  | .name .. | .int .. | .float .. | .string .. => 0
  | .negate _ operand => operand.nesting + 2
  | .binary _ _ left right => max left.nesting right.nesting + 1

/-- The words that the text of an expression is made of. A floating-point number with an exponent
is no word. -/
def words : Expr → List Lexeme
  | .name _ text => [.name text]
  | .int _ value => [.int (.ofDigits (digits value) fun _ => isDigit_of_mem_digits)]
  | .float _ value => if h : 'e' ∉ value.text then [.float (value.literal h)] else []
  | .string _ text => [.string text]
  | .negate _ operand =>
    .symbol .openParen :: (.symbol .minus :: operand.words) ++ [.symbol .closeParen]
  | .binary _ op left right =>
    .symbol .openParen :: (left.words ++ .symbol op.symbol :: right.words) ++
      [.symbol .closeParen]

theorem words_float {mark : Mark} {value : Magnitude} (h : 'e' ∉ value.text) :
    (float mark value).words = [.float (value.literal h)] := dif_pos h

/-- An expression has the words of its text in the grammar. -/
theorem written_words {e : Expr} (h : e.Writable) : e.Written .factor false e.words := by
  induction e with
  | name mark text => exact .atom (.name mark text)
  | int mark value => exact .atom (.int mark (Literal.int?_digits h))
  | float mark value =>
      rw [words_float h]
      exact .atom (.float mark (Literal.float?_literal h))
  | string mark text => exact .atom (.string mark text)
  | negate mark operand ih => exact .group (Written.negate mark (ih h).toSum).toSum
  | binary mark op left right ihLeft ihRight =>
      have hleft := ihLeft h.1
      have hright := ihRight h.2
      cases op with
      | add | sub => exact .group (.plus mark rfl hleft.toSum (.factor hright))
      | mul | div => exact .group (.product (.times mark rfl (.factor hleft) hright))

end Expr

/-! ## Texts in words -/

/-- A text is split into some words wherever it stands. -/
def Splits (text : List Char) (words : List Lexeme) : Prop :=
  ∀ file before, ∃ tokens finish, tokens.map Token.lexeme = words ∧
    Tokenized true file before text tokens finish

theorem splits_nil : Splits [] [] :=
  fun _ _ => ⟨[], _, rfl, .finish .nil⟩

namespace Splits

variable {text : List Char} {words : List Lexeme} (h : Splits text words)
include h

/-- Blanks stand in front of the words. -/
theorem blank {c : Char} (hc : isBlank c = true) : Splits (c :: text) words := by
  intro file before
  obtain ⟨tokens, finish, hwords, htokens⟩ := h file (before ++ [c])
  cases htokens with
  | finish hgap => exact ⟨[], _, hwords, .finish (.blank hc hgap)⟩
  | @word _ gap rest lexeme tokens _ hgap hword hlongest hrest =>
      rw [List.append_assoc before] at hrest
      exact ⟨⟨lexeme, .behind file (before ++ c :: gap)⟩ :: tokens, finish, hwords,
        .word (.blank hc hgap) hword hlongest hrest⟩

theorem word {lexeme : Lexeme} (hword : lexeme.Word true)
    (hlongest : lexeme.Longest true (lexeme.spelling ++ text)) :
    Splits (lexeme.spelling ++ text) (lexeme :: words) := by
  intro file before
  obtain ⟨tokens, finish, hwords, htokens⟩ := h file (before ++ [] ++ lexeme.spelling)
  exact ⟨_ :: tokens, finish, by rw [List.map_cons, hwords], .word .nil hword hlongest htokens⟩

/-- A word stands in front of a text that it cannot go on with. -/
theorem parted {lexeme : Lexeme} (hword : lexeme.Word true) (htext : Lexeme.Parted text) :
    Splits (lexeme.spelling ++ text) (lexeme :: words) :=
  h.word hword (hword.longest_of_parted htext)

/-- A mark stands in front of any text. -/
theorem mark {s : Symbol} (hs : s ∈ Symbol.marks) :
    Splits (s.spelling.toList ++ text) (.symbol s :: words) :=
  h.word (.mark hs) (Lexeme.longest_mark hs text)

theorem sign (op : BinOp) : Splits (op.sign.toList ++ text) (.symbol op.symbol :: words) := by
  cases op with
  | add | sub | mul | div => exact h.mark (by decide)

end Splits

namespace Expr

/-- The text of an expression is split into its words. -/
theorem splits_chars {e : Expr} (h : e.Writable) {rest : List Char} {after : List Lexeme}
    (hrest : Lexeme.Parted rest) (hafter : Splits rest after) :
    Splits (e.chars ++ rest) (e.words ++ after) := by
  have hparted {c : Char} (hc : isNamePart c = false ∧ c ≠ '.') (text : List Char) :
      Lexeme.Parted (c :: text) := by
    rintro c' hc'
    cases hc'
    exact hc
  induction e generalizing rest after with
  | name mark text =>
      rw [chars_name]
      exact hafter.parted h hrest
  | int mark value =>
      have hdigits : ∀ c ∈ digits value, isDigit c = true := fun _ => isDigit_of_mem_digits
      have hword : Lexeme.Word true (.int (.ofDigits (digits value) hdigits)) :=
        .int (digits_ne_nil value) hdigits
      have hsplits := hafter.parted hword hrest
      rw [Lexeme.spelling_int] at hsplits
      rwa [chars_int]
  | float mark value =>
      obtain ⟨⟨whole, fraction, htext, ⟨hne, -⟩, hdigits⟩, -⟩ := Magnitude.isPlain_text h
      rw [List.forall_mem_append] at hdigits
      have hliteral : value.literal h = .ofParts whole fraction hdigits.1 hdigits.2 := by
        simp only [Magnitude.literal, FloatText.ofParts, htext]
      have hword : Lexeme.Word true (.float (value.literal h)) :=
        hliteral ▸ .float hne hdigits.1 hdigits.2
      have hsplits := hafter.parted hword hrest
      rwa [chars_float, words_float h, ← value.spelling_literal h]
  | string mark text =>
      have htext : String.ofList text.toList = text := String.ofList_toList
      have hword : Lexeme.Word true (.string text) := htext ▸ .string rfl h
      rw [chars_string]
      exact hafter.parted hword hrest
  | negate mark operand ih =>
      have hclose : Splits (')' :: rest) (.symbol .closeParen :: after) := hafter.mark (by decide)
      have hoperand := ih h (hparted (by decide) _) hclose
      have hminus : Splits ('-' :: _) (.symbol .minus :: _) := hoperand.mark (by decide)
      have hopen : Splits ('(' :: _) (.symbol .openParen :: _) := hminus.mark (by decide)
      simpa [words] using hopen
  | binary mark op left right ihLeft ihRight =>
      have hclose : Splits (')' :: rest) (.symbol .closeParen :: after) := hafter.mark (by decide)
      have hright := (ihRight h.2 (hparted (by decide) _) hclose).blank (c := ' ') rfl
      have hsign := (hright.sign op).blank (c := ' ') rfl
      have hleft := ihLeft h.1 (hparted (by decide) _) hsign
      have hopen : Splits ('(' :: _) (.symbol .openParen :: _) := hleft.mark (by decide)
      simpa [words] using hopen

/-! ## The nesting of the text -/

/-- The text of an expression opens as much as the expression nests, and closes all of it. -/
theorem deepest_words {e : Expr} (h : e.Writable) (opened : List Opening) (rest : List Kind) :
    Openings.deepest ⟨opened, false⟩ (e.words.map Lexeme.kind ++ rest) =
      max (opened.length + e.nesting) (Openings.deepest ⟨opened, true⟩ rest) := by
  induction e generalizing opened rest with
  | name | int | string => rfl
  | float mark value =>
      rw [words_float h]
      rfl
  | negate mark operand ih =>
      -- The parenthesis and the negation are open around the operand.
      let inside : List Opening := .negation :: .group :: opened
      have hkinds : (negate mark operand).words.map Lexeme.kind ++ rest =
          .symbol .openParen :: .symbol .minus ::
            (operand.words.map Lexeme.kind ++ .symbol .closeParen :: rest) := by
        simp [words, Lexeme.kind]
      have hopen (kinds : List Kind) :
          Openings.deepest ⟨opened, false⟩ (.symbol .openParen :: .symbol .minus :: kinds) =
            max opened.length (max (opened.length + 1) (Openings.deepest ⟨inside, false⟩ kinds)) :=
        rfl
      have hclose : Openings.deepest ⟨inside, true⟩ (.symbol .closeParen :: rest) =
          max (opened.length + 2) (Openings.deepest ⟨opened, true⟩ rest) := rfl
      have hinside : inside.length = opened.length + 2 := rfl
      rw [hkinds, hopen, ih h, hclose, hinside, nesting]
      omega
  | binary mark op left right ihLeft ihRight =>
      let inside : List Opening := .group :: opened
      have hkinds : (binary mark op left right).words.map Lexeme.kind ++ rest =
          .symbol .openParen :: (left.words.map Lexeme.kind ++ .symbol op.symbol ::
            (right.words.map Lexeme.kind ++ .symbol .closeParen :: rest)) := by
        simp [words, Lexeme.kind]
      have hopen (kinds : List Kind) :
          Openings.deepest ⟨opened, false⟩ (.symbol .openParen :: kinds) =
            max opened.length (Openings.deepest ⟨inside, false⟩ kinds) :=
        rfl
      have hsign (kinds : List Kind) :
          Openings.deepest ⟨inside, true⟩ (.symbol op.symbol :: kinds) =
            max (opened.length + 1) (Openings.deepest ⟨inside, false⟩ kinds) := by
        cases op with
        | add | sub | mul | div => rfl
      have hclose : Openings.deepest ⟨inside, true⟩ (.symbol .closeParen :: rest) =
          max (opened.length + 1) (Openings.deepest ⟨opened, true⟩ rest) := rfl
      have hinside : inside.length = opened.length + 1 := rfl
      rw [hkinds, hopen, ihLeft h.1, hsign, ihRight h.2, hclose, hinside, nesting]
      omega

/-- The words of a statement that prints an expression. -/
def printed (e : Expr) : List Lexeme := .symbol .printWord :: e.words ++ [.symbol .semicolon]

theorem nesting_printed {e : Expr} (h : e.Writable) :
    Grammar.nesting (e.printed.map Lexeme.kind) = e.nesting := by
  have hkinds : e.printed.map Lexeme.kind =
      .symbol .printWord :: (e.words.map Lexeme.kind ++ [.symbol .semicolon]) := by
    simp [printed, Lexeme.kind]
  have hstart (kinds : List Kind) : Grammar.nesting (.symbol .printWord :: kinds) =
      max 0 (Openings.deepest ⟨[], false⟩ kinds) := rfl
  have hend : Openings.deepest ⟨[], true⟩ [.symbol .semicolon] = 0 := rfl
  rw [hkinds, hstart, deepest_words h, hend, List.length_nil]
  omega

theorem splits_printed {e : Expr} (h : e.Writable) :
    Splits ("print " ++ e.render none ++ ";").toList e.printed := by
  have hend : Splits [';'] [.symbol .semicolon] := splits_nil.mark (by decide)
  have hparted : Lexeme.Parted [';'] := by
    rintro c hc
    cases hc
    decide
  have hblank : Lexeme.Parted (' ' :: (e.chars ++ [';'])) := by
    rintro c hc
    cases hc
    decide
  have hvalue := (splits_chars h hparted hend).blank (c := ' ') rfl
  have hprint : Splits ("print".toList ++ _) (.symbol .printWord :: _) :=
    hvalue.parted (.keyword (by decide)) hblank
  have htext : ("print " ++ e.render none ++ ";").toList =
      "print".toList ++ ' ' :: (e.chars ++ [';']) := by
    simp [chars]
  rwa [htext]

theorem written_printed {e : Expr} (h : e.Writable) :
    Program.Written ⟨[], [.print default e]⟩ e.printed :=
  ⟨_, .print default (written_words h).toSum .nil, rfl⟩

end Expr

/-- A program that prints one expression prints one without locations and numbers. -/
theorem Program.exists_print_of_bare {p : Program} {location : Location} {e : Expr}
    (h : p.bare = Program.bare ⟨[], [.print location e]⟩) :
    ∃ location' value, p = ⟨[], [.print location' value]⟩ ∧ value.bare = e.bare := by
  obtain ⟨declarations, statements⟩ := p
  obtain ⟨hdeclarations, hstatements⟩ := Program.mk.inj h
  obtain rfl := List.map_eq_nil_iff.mp hdeclarations
  cases statements with
  | nil => cases hstatements
  | cons s rest =>
      obtain ⟨hprint, hrest⟩ := List.cons.inj hstatements
      cases rest with
      | cons => cases hrest
      | nil =>
          cases s with
          | print location' value => exact ⟨location', value, rfl, (Stmt.print.inj hprint).2⟩
          | read | assign | branch | loop => cases hprint

/-- A statement that prints the text of an expression is scanned, and a pass reads it as the program
with this one statement. -/
theorem Source.exists_pass_print {e : Expr} (h : e.Writable) (file : String) :
    ∃ s location value,
      (Source.mk file true ("print " ++ e.render none ++ ";").toList).scan = .ok s ∧
      Parser.Within e.nesting s ∧ Parser.pass s = .ok ⟨[], [.print location value]⟩ ∧
      value.bare = e.bare := by
  obtain ⟨tokens, finish, hwords, htokens⟩ := e.splits_printed h file []
  let s : Sentence := ⟨tokens, finish, htokens.lexeme_ne_finish⟩
  have hwritten : Program.Written ⟨[], [.print default e]⟩ (s.words.map Token.lexeme) := by
    rw [show s.words = tokens from rfl, hwords]
    exact Expr.written_printed h
  have hkinds : s.words.map Token.kind = e.printed.map Lexeme.kind := by
    rw [← hwords, List.map_map]
    rfl
  have hwithin := Parser.within_nesting s
  rw [hkinds, Expr.nesting_printed h] at hwithin
  obtain ⟨p, hpass, hbare⟩ := Parser.exists_pass_of_written hwritten
  obtain ⟨location, value, rfl, hvalue⟩ := Program.exists_print_of_bare hbare
  exact ⟨s, location, value, Sentence.ofSource_eq_ok_iff.mpr htokens, hwithin, hpass, hvalue⟩

/-- The text of an expression reads back: printed by a statement, it is a program with this one
statement, and the expression there is the one that was written out, but for locations and
numbers. The names and strings must be words, and the numbers such as can be written. On any host
the text is read as this program or found to be nested too deeply, and it is read where the calls
of the parser suffice for what is open at once in it. -/
theorem Source.compile_print_render [Host] {e : Expr} (h : e.Writable) (file : String) :
    let source : Source := ⟨file, true, ("print " ++ e.render none ++ ";").toList⟩
    ∃ s location value, source.scan = .ok s ∧ value.bare = e.bare ∧
      (source.compile .parse = .ok (.parsed s ⟨[], [.print location value]⟩) ∨
        ∃ d, source.compile .parse = .error d ∧ d.cause = .nestingTooDeep) ∧
      ((∀ calls ∈ Host.calls, Parser.callsFor e.nesting ≤ calls) →
        source.compile .parse = .ok (.parsed s ⟨[], [.print location value]⟩)) := by
  intro source
  obtain ⟨s, location, value, hscan, hwithin, hpass, hvalue⟩ := exists_pass_print h file
  have hcompile (hparse : Parser.parse inferInstance s = Parser.pass s) :
      source.compile .parse = .ok (.parsed s ⟨[], [.print location value]⟩) :=
    compile_parse_eq_ok_iff.mpr ⟨s, _, hscan, hparse.trans hpass, rfl⟩
  refine ⟨s, location, value, hscan, hvalue, ?_, fun hcalls => ?_⟩
  · rcases Parser.parse_cases inferInstance s with hparse | ⟨t, -, hdeep⟩
    · exact .inl (hcompile hparse)
    · right
      rw [compile_parse_of_scan hscan, Sentence.parse, Program.ofSentence, hdeep]
      exact ⟨_, rfl, rfl⟩
  · exact hcompile (Parser.parse_eq_pass hwithin hcalls)

/-- A negation under a difference, and a string that looks like a comment, read back with 26
calls. -/
theorem Source.compile_print_render_difference :
    let negation : Expr := .negate default (.name default "x")
    let sum : Expr := .binary default .add (.float default ⟨0x4004000000000000, by decide⟩)
      (.string default "# (")
    let e : Expr := .binary default .sub negation sum
    e.render none = "((-x) - (2.5 + \"# (\"))" ∧ e.nesting = 3 ∧
      ∃ s location value,
        @Source.compile ⟨some 26, none, nofun⟩ ⟨"a", true,
          ("print " ++ e.render none ++ ";").toList⟩ .parse =
          .ok (.parsed s ⟨[], [.print location value]⟩) ∧ value.bare = e.bare := by
  intro negation sum e
  let host : Host := ⟨some 26, none, nofun⟩
  have hname : Lexeme.Word true (.name "x") := @Lexeme.Word.name true 'x' [] rfl nofun (by decide)
  have hfloat : 'e' ∉ (Magnitude.mk 0x4004000000000000 (by decide)).text := by decide +kernel
  have hstring : ∀ c ∈ "# (".toList, isStringPart c = true := List.all_eq_true.mp rfl
  have hwritable : e.Writable := ⟨hname, hfloat, hstring⟩
  obtain ⟨s, location, value, -, hvalue, -, hreads⟩ := @compile_print_render host e hwritable "a"
  have hcalls : ∀ calls ∈ host.calls, Parser.callsFor e.nesting ≤ calls := by
    intro calls h
    obtain rfl : 26 = calls := Option.some.inj h
    decide
  exact ⟨by decide +kernel, rfl, s, location, value, hreads hcalls, hvalue⟩

end ImpToC
