import ImpToC.Token

/-!
# The grammar of the language

The rules that a sentence follows, as forms over the kinds of token: words,
other rules, alternatives, and parts that are repeated or left out. The grammar
is ambiguous: a minus sign in front of an expression may take more or less of
what follows it.
-/

namespace ImpToC.Grammar

/-- The names of the rules. -/
inductive Rule
  | program
  | decl
  | type
  | stmt
  | read
  | print
  | assign
  | branch
  | loop
  | expr
  | term
  | factor
  deriving DecidableEq

/-- What a rule allows. -/
inductive Form
  | word (kind : Kind)
  | rule (rule : Rule)
  | all (forms : List Form)
  | any (forms : List Form)
  | many (form : Form)
  | optional (form : Form)

/-- A keyword or a punctuation mark. -/
def Form.mark (symbol : Symbol) : Form := .word (.symbol symbol)

/-- The rules. -/
def Rule.form : Rule → Form
  | program => .all [.many (.rule decl), .many (.rule stmt), .word .finish]
  | decl => .all [.mark .varWord, .word .name, .mark .colon, .rule type, .mark .semicolon]
  | type => .any [.mark .intWord, .mark .floatWord, .mark .stringWord]
  | stmt => .any [.rule read, .rule print, .rule assign, .rule branch, .rule loop]
  | read => .all [.mark .readWord, .word .name, .mark .semicolon]
  | print => .all [.mark .printWord, .rule expr, .mark .semicolon]
  | assign => .all [.word .name, .mark .equals, .rule expr, .mark .semicolon]
  | branch =>
    .all
      [.mark .ifWord, .rule expr, .mark .thenWord, .many (.rule stmt),
        .optional (.all [.mark .elseWord, .many (.rule stmt)]), .mark .endWord]
  | loop =>
    .all [.mark .whileWord, .rule expr, .mark .doWord, .many (.rule stmt), .mark .doneWord]
  | expr => .all [.rule term, .many (.all [.any [.mark .plus, .mark .minus], .rule term])]
  | term => .all [.rule factor, .many (.all [.any [.mark .star, .mark .slash], .rule factor])]
  | factor =>
    .any
      [.word .int, .word .float, .word .string, .word .name,
        .all [.mark .openParen, .rule expr, .mark .closeParen],
        .all [.mark .minus, .rule expr]]

/-- A form allows a list of kinds. -/
inductive Derives : Form → List Kind → Prop
  | word (kind : Kind) : Derives (.word kind) [kind]
  | rule {name : Rule} {kinds : List Kind} :
      Derives name.form kinds → Derives (.rule name) kinds
  | none : Derives (.all []) []
  | all {form : Form} {forms : List Form} {first rest : List Kind} :
      Derives form first → Derives (.all forms) rest →
        Derives (.all (form :: forms)) (first ++ rest)
  | any {form : Form} {forms : List Form} {kinds : List Kind} :
      form ∈ forms → Derives form kinds → Derives (.any forms) kinds
  | stop (form : Form) : Derives (.many form) []
  | more {form : Form} {first rest : List Kind} :
      Derives form first → Derives (.many form) rest → Derives (.many form) (first ++ rest)
  | absent (form : Form) : Derives (.optional form) []
  | present {form : Form} {kinds : List Kind} :
      Derives form kinds → Derives (.optional form) kinds

/-! ## What each form allows -/

@[simp] theorem derives_word {kind : Kind} {kinds : List Kind} :
    Derives (.word kind) kinds ↔ kinds = [kind] := by
  constructor
  · intro h
    cases h
    rfl
  · rintro rfl
    exact .word kind

@[simp] theorem derives_mark {symbol : Symbol} {kinds : List Kind} :
    Derives (.mark symbol) kinds ↔ kinds = [.symbol symbol] := derives_word

theorem derives_rule {name : Rule} {kinds : List Kind} :
    Derives (.rule name) kinds ↔ Derives name.form kinds := by
  constructor
  · intro h
    cases h with
    | rule h => exact h
  · exact .rule

@[simp] theorem derives_all_nil {kinds : List Kind} : Derives (.all []) kinds ↔ kinds = [] := by
  constructor
  · intro h
    cases h
    rfl
  · rintro rfl
    exact .none

@[simp] theorem derives_all_cons {form : Form} {forms : List Form} {kinds : List Kind} :
    Derives (.all (form :: forms)) kinds ↔
      ∃ first rest, kinds = first ++ rest ∧ Derives form first ∧ Derives (.all forms) rest := by
  constructor
  · intro h
    cases h with
    | all hfirst hrest => exact ⟨_, _, rfl, hfirst, hrest⟩
  · rintro ⟨first, rest, rfl, hfirst, hrest⟩
    exact .all hfirst hrest

@[simp] theorem derives_any {forms : List Form} {kinds : List Kind} :
    Derives (.any forms) kinds ↔ ∃ form ∈ forms, Derives form kinds := by
  constructor
  · intro h
    cases h with
    | any hmem h => exact ⟨_, hmem, h⟩
  · rintro ⟨form, hmem, h⟩
    exact .any hmem h

@[simp] theorem derives_optional {form : Form} {kinds : List Kind} :
    Derives (.optional form) kinds ↔ kinds = [] ∨ Derives form kinds := by
  constructor
  · intro h
    cases h with
    | absent => exact .inl rfl
    | present h => exact .inr h
  · rintro (rfl | h)
    · exact .absent form
    · exact .present h

/-- A repetition allows what can be cut into pieces that its form allows. -/
theorem derives_many {form : Form} {kinds : List Kind} :
    Derives (.many form) kinds ↔
      ∃ pieces : List (List Kind),
        kinds = pieces.flatten ∧ ∀ piece ∈ pieces, Derives form piece := by
  constructor
  · intro h
    generalize hform : Form.many form = repeated at h
    induction h with
    | stop => exact ⟨[], rfl, by simp⟩
    | more hfirst hrest _ ih =>
        cases hform
        obtain ⟨pieces, rfl, hpieces⟩ := ih rfl
        exact ⟨_ :: pieces, rfl, by simpa using ⟨hfirst, hpieces⟩⟩
    | _ => cases hform
  · rintro ⟨pieces, rfl, hpieces⟩
    induction pieces with
    | nil => exact .stop form
    | cons piece pieces ih =>
        simp only [List.forall_mem_cons] at hpieces
        exact .more hpieces.1 (ih hpieces.2)

/-- A repetition can be followed by one piece more. -/
theorem Derives.many_append {form : Form} {first rest : List Kind}
    (hfirst : Derives (.many form) first) (hrest : Derives form rest) :
    Derives (.many form) (first ++ rest) := by
  obtain ⟨pieces, rfl, hpieces⟩ := derives_many.mp hfirst
  refine derives_many.mpr ⟨pieces ++ [rest], by simp, fun piece hpiece => ?_⟩
  rcases List.mem_append.mp hpiece with hpiece | hpiece
  · exact hpieces piece hpiece
  · rw [List.mem_singleton.mp hpiece]
    exact hrest

/-- A sequence of two forms. -/
theorem derives_all_pair {first second : Form} {kinds : List Kind} :
    Derives (.all [first, second]) kinds ↔
      ∃ front back, Derives first front ∧ Derives second back ∧ kinds = front ++ back := by
  simp only [derives_all_cons, derives_all_nil]
  constructor
  · rintro ⟨front, _, rfl, hfront, back, _, rfl, hback, rfl⟩
    exact ⟨front, back, hfront, hback, by simp⟩
  · rintro ⟨front, back, hfront, hback, rfl⟩
    exact ⟨front, back, rfl, hfront, back, [], by simp, hback, rfl⟩

/-! ## What each rule allows -/

theorem derives_program {kinds : List Kind} :
    Derives (.rule .program) kinds ↔
      ∃ declarations statements, kinds = declarations ++ statements ++ [.finish] ∧
        Derives (.many (.rule .decl)) declarations ∧ Derives (.many (.rule .stmt)) statements := by
  rw [derives_rule]
  simp only [Rule.form, derives_all_cons, derives_word, derives_all_nil]
  constructor
  · rintro ⟨declarations, _, rfl, hdeclarations, statements, _, rfl, hstatements, _, _, rfl, rfl,
      rfl⟩
    exact ⟨declarations, statements, by simp, hdeclarations, hstatements⟩
  · rintro ⟨declarations, statements, rfl, hdeclarations, hstatements⟩
    exact ⟨declarations, statements ++ [.finish], by simp, hdeclarations, statements, [.finish],
      rfl, hstatements, [.finish], [], rfl, rfl, rfl⟩

theorem derives_decl {kinds : List Kind} :
    Derives (.rule .decl) kinds ↔
      ∃ type ∈ [Symbol.intWord, .floatWord, .stringWord],
        kinds = [.symbol .varWord, .name, .symbol .colon, .symbol type, .symbol .semicolon] := by
  simp only [derives_rule, Rule.form, derives_all_cons, derives_mark, derives_word, derives_all_nil,
    derives_any, List.mem_cons, List.not_mem_nil, or_false, exists_eq_or_imp, exists_eq_left]
  constructor
  · rintro ⟨_, _, rfl, rfl, _, _, rfl, rfl, _, _, rfl, rfl, type, _, rfl, htype, _, _, rfl, rfl,
      rfl⟩
    rcases htype with rfl | rfl | rfl <;> simp
  · rintro (rfl | rfl | rfl)
    all_goals
      exact ⟨_, _, rfl, rfl, [_], _, rfl, rfl, [_], _, rfl, rfl, [_], _, rfl, by simp, [_], _, rfl,
        rfl, rfl⟩

theorem derives_read {kinds : List Kind} :
    Derives (.rule .read) kinds ↔ kinds = [.symbol .readWord, .name, .symbol .semicolon] := by
  simp only [derives_rule, Rule.form, derives_all_cons, derives_mark, derives_word, derives_all_nil]
  constructor
  · rintro ⟨_, _, rfl, rfl, _, _, rfl, rfl, _, _, rfl, rfl, rfl⟩
    rfl
  · rintro rfl
    exact ⟨[_], _, rfl, rfl, [_], _, rfl, rfl, [_], _, rfl, rfl, rfl⟩

theorem derives_print {kinds : List Kind} :
    Derives (.rule .print) kinds ↔
      ∃ value, Derives (.rule .expr) value ∧
        kinds = .symbol .printWord :: value ++ [.symbol .semicolon] := by
  rw [derives_rule]
  simp only [Rule.form, derives_all_cons, derives_mark, derives_all_nil]
  constructor
  · rintro ⟨_, _, rfl, rfl, value, _, rfl, hvalue, _, _, rfl, rfl, rfl⟩
    exact ⟨value, hvalue, by simp⟩
  · rintro ⟨value, hvalue, rfl⟩
    exact ⟨[_], _, rfl, rfl, value, _, rfl, hvalue, [_], _, rfl, rfl, rfl⟩

theorem derives_assign {kinds : List Kind} :
    Derives (.rule .assign) kinds ↔
      ∃ value, Derives (.rule .expr) value ∧
        kinds = .name :: .symbol .equals :: value ++ [.symbol .semicolon] := by
  rw [derives_rule]
  simp only [Rule.form, derives_all_cons, derives_mark, derives_word, derives_all_nil]
  constructor
  · rintro ⟨_, _, rfl, rfl, _, _, rfl, rfl, value, _, rfl, hvalue, _, _, rfl, rfl, rfl⟩
    exact ⟨value, hvalue, by simp⟩
  · rintro ⟨value, hvalue, rfl⟩
    exact ⟨[_], _, rfl, rfl, [_], _, rfl, rfl, value, _, rfl, hvalue, [_], _, rfl, rfl, rfl⟩

theorem derives_branch {kinds : List Kind} :
    Derives (.rule .branch) kinds ↔
      ∃ condition yes alternative, Derives (.rule .expr) condition ∧
        Derives (.many (.rule .stmt)) yes ∧
        (alternative = [] ∨ ∃ no, Derives (.many (.rule .stmt)) no ∧
          alternative = .symbol .elseWord :: no) ∧
        kinds = .symbol .ifWord :: condition ++ .symbol .thenWord :: yes ++ alternative ++
          [.symbol .endWord] := by
  rw [derives_rule]
  simp only [Rule.form, derives_all_cons, derives_mark, derives_optional, derives_all_nil]
  constructor
  · rintro ⟨_, _, rfl, rfl, condition, _, rfl, hcondition, _, _, rfl, rfl, yes, _, rfl, hyes,
      alternative, _, rfl, halternative, _, _, rfl, rfl, rfl⟩
    refine ⟨condition, yes, alternative, hcondition, hyes, halternative.imp_right ?_, by simp⟩
    rintro ⟨_, _, rfl, rfl, no, _, rfl, hno, rfl⟩
    exact ⟨no, hno, by simp⟩
  · rintro ⟨condition, yes, alternative, hcondition, hyes, halternative, rfl⟩
    refine ⟨[_], condition ++ .symbol .thenWord :: yes ++ alternative ++ [.symbol .endWord],
      by simp, rfl, condition, .symbol .thenWord :: yes ++ alternative ++ [.symbol .endWord],
      by simp, hcondition, [_], yes ++ alternative ++ [.symbol .endWord], rfl, rfl, yes, _,
      List.append_assoc .., hyes, alternative, _, rfl, halternative.imp_right ?_, [_], _, rfl, rfl,
      rfl⟩
    rintro ⟨no, hno, rfl⟩
    exact ⟨[_], no, rfl, rfl, no, [], by simp, hno, rfl⟩

theorem derives_loop {kinds : List Kind} :
    Derives (.rule .loop) kinds ↔
      ∃ condition body, Derives (.rule .expr) condition ∧ Derives (.many (.rule .stmt)) body ∧
        kinds = .symbol .whileWord :: condition ++ .symbol .doWord :: body ++
          [.symbol .doneWord] := by
  rw [derives_rule]
  simp only [Rule.form, derives_all_cons, derives_mark, derives_all_nil]
  constructor
  · rintro ⟨_, _, rfl, rfl, condition, _, rfl, hcondition, _, _, rfl, rfl, body, _, rfl, hbody, _,
      _, rfl, rfl, rfl⟩
    exact ⟨condition, body, hcondition, hbody, by simp⟩
  · rintro ⟨condition, body, hcondition, hbody, rfl⟩
    exact ⟨[_], condition ++ .symbol .doWord :: body ++ [.symbol .doneWord], by simp, rfl,
      condition, _, by simp, hcondition, [_], _, rfl, rfl, body, _, rfl, hbody, [_], _, rfl, rfl,
      rfl⟩

theorem derives_stmt {kinds : List Kind} :
    Derives (.rule .stmt) kinds ↔
      ∃ statement ∈ [Rule.read, .print, .assign, .branch, .loop],
        Derives (.rule statement) kinds := by
  rw [derives_rule]
  simp [Rule.form]

theorem derives_factor {kinds : List Kind} :
    Derives (.rule .factor) kinds ↔
      (∃ atom ∈ [Kind.int, .float, .string, .name], kinds = [atom]) ∨
      (∃ inner, Derives (.rule .expr) inner ∧
        kinds = .symbol .openParen :: inner ++ [.symbol .closeParen]) ∨
      ∃ inner, Derives (.rule .expr) inner ∧ kinds = .symbol .minus :: inner := by
  rw [derives_rule]
  simp only [Rule.form, derives_any, List.mem_cons, List.not_mem_nil, or_false, exists_eq_or_imp,
    exists_eq_left, derives_word, derives_all_pair, derives_mark, or_assoc]
  refine or_congr_right (or_congr_right (or_congr_right (or_congr_right (or_congr ?_ ?_))))
  · simp only [derives_all_cons, derives_mark, derives_all_nil]
    constructor
    · rintro ⟨_, _, rfl, rfl, inner, _, rfl, hinner, _, _, rfl, rfl, rfl⟩
      exact ⟨inner, hinner, by simp⟩
    · rintro ⟨inner, hinner, rfl⟩
      exact ⟨[_], _, rfl, rfl, inner, _, rfl, hinner, [_], _, rfl, rfl, rfl⟩
  · constructor
    · rintro ⟨_, inner, rfl, hinner, rfl⟩
      exact ⟨inner, hinner, rfl⟩
    · rintro ⟨inner, hinner, rfl⟩
      exact ⟨[_], inner, rfl, hinner, rfl⟩

/-- What goes on behind a part of an expression or a term: one of two operators and a
part more. -/
theorem derives_operation {first second : Symbol} {part : Form} {kinds : List Kind} :
    Derives (.all [.any [.mark first, .mark second], part]) kinds ↔
      ∃ op ∈ [first, second], ∃ rest, Derives part rest ∧ kinds = .symbol op :: rest := by
  rw [derives_all_pair]
  simp only [derives_any, List.mem_cons, List.not_mem_nil, or_false, exists_eq_or_imp,
    exists_eq_left, derives_mark]
  constructor
  · rintro ⟨_, rest, rfl | rfl, hrest, rfl⟩
    · exact .inl ⟨rest, hrest, rfl⟩
    · exact .inr ⟨rest, hrest, rfl⟩
  · rintro (⟨rest, hrest, rfl⟩ | ⟨rest, hrest, rfl⟩)
    · exact ⟨[_], rest, .inl rfl, hrest, rfl⟩
    · exact ⟨[_], rest, .inr rfl, hrest, rfl⟩

theorem derives_term {kinds : List Kind} :
    Derives (.rule .term) kinds ↔
      ∃ first rest, Derives (.rule .factor) first ∧
        Derives (.many (.all [.any [.mark .star, .mark .slash], .rule .factor])) rest ∧
        kinds = first ++ rest := by
  rw [derives_rule, Rule.form, derives_all_pair]

theorem derives_expr {kinds : List Kind} :
    Derives (.rule .expr) kinds ↔
      ∃ first rest, Derives (.rule .term) first ∧
        Derives (.many (.all [.any [.mark .plus, .mark .minus], .rule .term])) rest ∧
        kinds = first ++ rest := by
  rw [derives_rule, Rule.form, derives_all_pair]

end ImpToC.Grammar
