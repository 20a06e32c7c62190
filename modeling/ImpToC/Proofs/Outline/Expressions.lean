import ImpToC.Proofs.Grammar.Spelling
import ImpToC.Proofs.Number.Texts
import ImpToC.Proofs.Outline.Texts

/-!
# Texts of expressions tell them apart

The first characters of a text tell which form of expression it is, and each form shows where
its text ends. So the text of an expression cannot go on as that of another one, and two
expressions with the same text are the same up to locations and numbers.
-/

namespace ImpToC

/-! ## Where texts end -/

/-- Two runs of some characters that each end in front of another one are the same. -/
theorem run_inj {p : Char → Bool} {xs ys rest rest' : List Char} (hxs : ∀ c ∈ xs, p c = true)
    (hys : ∀ c ∈ ys, p c = true) (hrest : ∀ c ∈ rest.head?, p c = false)
    (hrest' : ∀ c ∈ rest'.head?, p c = false) (h : xs ++ rest = ys ++ rest') :
    xs = ys ∧ rest = rest' := by
  induction xs generalizing ys with
  | nil =>
      cases ys with
      | nil => exact ⟨rfl, h⟩
      | cons c ys =>
          have hc := hrest c (by rw [← List.nil_append rest, h]; rfl)
          exact Bool.noConfusion (hc.symm.trans (hys c List.mem_cons_self))
  | cons c xs ih =>
      cases ys with
      | nil =>
          have hc := hrest' c (by rw [← List.nil_append rest', ← h]; rfl)
          exact Bool.noConfusion (hc.symm.trans (hxs c List.mem_cons_self))
      | cons d ys =>
          obtain ⟨rfl, htail⟩ := List.cons.inj h
          obtain ⟨rfl, rfl⟩ := ih (fun c hc => hxs c (List.mem_cons_of_mem _ hc))
            (fun c hc => hys c (List.mem_cons_of_mem _ hc)) htail
          exact ⟨rfl, rfl⟩

/-- The characters that can stand behind an expression. -/
def isStop (c : Char) : Bool := c = ' ' || c = ')'

/-- A text that can stand behind an expression. -/
def Stops (text : List Char) : Prop := ∀ c ∈ text.head?, isStop c = true

theorem stops_nil : Stops [] := by
  rintro c hc
  cases hc

theorem stops_cons {c : Char} (hc : isStop c = true) (text : List Char) : Stops (c :: text) := by
  rintro c' hc'
  cases hc'
  exact hc

theorem isStop_eq_false_of_isNamePart {c : Char} (h : isNamePart c = true) : isStop c = false := by
  rw [isStop, Bool.or_eq_false_iff, decide_eq_false_iff_not, decide_eq_false_iff_not]
  constructor
  · rintro rfl
    cases h
  · rintro rfl
    cases h

theorem BinOp.sign_append_inj {op op' : BinOp} {rest rest' : List Char}
    (h : op.sign.toList ++ rest = op'.sign.toList ++ rest') : op = op' ∧ rest = rest' := by
  cases op <;> cases op' <;> simp_all [sign]

/-! ## Forms of expressions -/

/-- What the text of an expression is on its outside. -/
inductive Form
  | word
  | string
  | negation
  | operation
  deriving DecidableEq

/-- The form that a text starts as. -/
def Form.ofText : List Char → Form
  | '"' :: _ => .string
  | '(' :: '-' :: _ => .negation
  | '(' :: _ => .operation
  | _ => .word

theorem Form.ofText_of_isNamePart {c : Char} (h : isNamePart c = true) (text : List Char) :
    ofText (c :: text) = .word := by
  unfold ofText
  split
  next heq => cases heq; cases h
  next heq => cases heq; cases h
  next heq => cases heq; cases h
  next => rfl

theorem Form.ofText_of_ne_minus {c : Char} (h : c ≠ '-') (text : List Char) :
    ofText ('(' :: c :: text) = .operation := by
  unfold ofText
  split
  next heq => cases heq
  next heq => cases heq; exact absurd rfl h
  next => rfl
  next hne => exact absurd rfl (hne _)

namespace Expr

/-- The form of an expression. -/
def form : Expr → Form
  | .name .. | .int .. | .float .. => .word
  | .string .. => .string
  | .negate .. => .negation
  | .binary .. => .operation

variable {strings strings' : Bool}

/-- A word starts like a name or a number. -/
theorem exists_cons_of_word {e : Expr} (h : e.Spelt strings) (hform : e.form = .word) :
    ∃ c rest, e.chars = c :: rest ∧ isNamePart c = true := by
  cases e with
  | name mark text =>
      obtain ⟨c, rest, htext, hstart, -⟩ := h.exists_of_name
      exact ⟨c, rest, by rw [chars_name, htext], Lexeme.isNamePart_of_isNameStart hstart⟩
  | int mark value =>
      obtain ⟨c, rest, htext⟩ := List.exists_cons_of_ne_nil (Number.digits_ne_nil value)
      refine ⟨c, rest, by rw [chars_int, htext], Lexeme.isNamePart_of_isDigit ?_⟩
      exact Number.isDigit_of_mem_digits (htext ▸ List.mem_cons_self)
  | float mark value =>
      obtain ⟨c, rest, htext, hc⟩ := value.exists_digit_of_text
      exact ⟨c, rest, by rw [chars_float, htext], Lexeme.isNamePart_of_isDigit hc⟩
  | string | negate | binary => cases hform

/-- A word ends where it can. -/
theorem isStop_eq_false_of_word {e : Expr} (h : e.Spelt strings) (hform : e.form = .word) :
    ∀ c ∈ e.chars, isStop c = false := by
  intro c hc
  cases e with
  | name mark text =>
      exact isStop_eq_false_of_isNamePart (h.isNamePart_of_name c (chars_name mark text ▸ hc))
  | int mark value =>
      have hdigit := Number.isDigit_of_mem_digits (chars_int mark value ▸ hc)
      exact isStop_eq_false_of_isNamePart (Lexeme.isNamePart_of_isDigit hdigit)
  | float mark value =>
      have hmarks : ∀ c ∈ ['.', 'e', '+', '-'], isStop c = false := by simp [isStop]
      rcases Number.Magnitude.mem_text (chars_float mark value ▸ hc) with hdigit | hmem
      · exact isStop_eq_false_of_isNamePart (Lexeme.isNamePart_of_isDigit hdigit)
      · exact hmarks c hmem
  | string | negate | binary => cases hform

theorem head_ne_minus {e : Expr} (h : e.Spelt strings) :
    ∃ c rest, e.chars = c :: rest ∧ c ≠ '-' := by
  cases e with
  | name | int | float =>
      obtain ⟨c, rest, htext, hc⟩ := exists_cons_of_word h rfl
      refine ⟨c, rest, htext, ?_⟩
      rintro rfl
      cases hc
  | string => exact ⟨'"', _, chars_string _ _, by decide⟩
  | negate => exact ⟨'(', _, chars_negate _ _, by decide⟩
  | binary => exact ⟨'(', _, chars_binary _ _ _ _, by decide⟩

/-- The first characters of an expression show its form. -/
theorem form_ofText {e : Expr} (h : e.Spelt strings) (rest : List Char) :
    Form.ofText (e.chars ++ rest) = e.form := by
  cases e with
  | name | int | float =>
      obtain ⟨c, tail, htext, hc⟩ := exists_cons_of_word h rfl
      rw [htext]
      exact Form.ofText_of_isNamePart hc _
  | string =>
      rw [chars_string]
      rfl
  | negate =>
      rw [chars_negate]
      rfl
  | binary mark op left right =>
      obtain ⟨c, tail, htext, hc⟩ := head_ne_minus h.1
      rw [chars_binary, htext]
      exact Form.ofText_of_ne_minus hc _

theorem form_eq_of_chars {e e' : Expr} {rest rest' : List Char} (h : e.Spelt strings)
    (h' : e'.Spelt strings') (htext : e.chars ++ rest = e'.chars ++ rest') :
    e.form = e'.form := by
  rw [← form_ofText h rest, htext, form_ofText h' rest']

/-! ## Expressions with one text -/

/-- A number is no name. -/
theorem chars_ne_of_isDigit {text : String} (h : Lexeme.Word strings (.name text)) {c : Char}
    {rest : List Char} (hc : isDigit c = true) : text.toList ≠ c :: rest := by
  intro htext
  obtain ⟨c', rest', htext', hstart, -⟩ := h.exists_of_name
  obtain ⟨rfl, -⟩ := List.cons.inj (htext.symm.trans htext')
  exact Bool.noConfusion (hc.symm.trans (Lexeme.isDigit_eq_false_of_isNameStart hstart))

theorem text_ne_digits (m : Number.Magnitude) (n : Nat) : m.text ≠ Number.digits n := by
  intro h
  obtain ⟨c, hmem, hc⟩ := m.exists_mark_of_text
  exact Bool.noConfusion (hc.symm.trans (Number.isDigit_of_mem_digits (h ▸ hmem)))

/-- Two words with the same text are the same. -/
theorem bare_eq_of_word {e e' : Expr} (h : e.Spelt strings) (h' : e'.Spelt strings')
    (hform : e.form = .word) (hform' : e'.form = .word) (htext : e.chars = e'.chars) :
    e.bare = e'.bare := by
  have hdigits (n : Nat) : ∃ c rest, Number.digits n = c :: rest ∧ isDigit c = true := by
    obtain ⟨c, rest, hn⟩ := List.exists_cons_of_ne_nil (Number.digits_ne_nil n)
    exact ⟨c, rest, hn, Number.isDigit_of_mem_digits (hn ▸ List.mem_cons_self)⟩
  cases e with
  | name mark text =>
      cases e' with
      | name mark' text' =>
          rw [chars_name, chars_name] at htext
          rw [bare, bare, String.toList_inj.mp htext]
      | int mark' value =>
          obtain ⟨c, rest, hvalue, hc⟩ := hdigits value
          rw [chars_name, chars_int, hvalue] at htext
          exact absurd htext (chars_ne_of_isDigit h hc)
      | float mark' value =>
          obtain ⟨c, rest, hvalue, hc⟩ := value.exists_digit_of_text
          rw [chars_name, chars_float, hvalue] at htext
          exact absurd htext (chars_ne_of_isDigit h hc)
      | string | negate | binary => cases hform'
  | int mark value =>
      cases e' with
      | name mark' text =>
          obtain ⟨c, rest, hvalue, hc⟩ := hdigits value
          rw [chars_name, chars_int, hvalue] at htext
          exact absurd htext.symm (chars_ne_of_isDigit h' hc)
      | int mark' value' =>
          rw [chars_int, chars_int] at htext
          rw [bare, bare, Number.digits_injective htext]
      | float mark' value' =>
          rw [chars_int, chars_float] at htext
          exact absurd htext.symm (text_ne_digits value' value)
      | string | negate | binary => cases hform'
  | float mark value =>
      cases e' with
      | name mark' text =>
          obtain ⟨c, rest, hvalue, hc⟩ := value.exists_digit_of_text
          rw [chars_name, chars_float, hvalue] at htext
          exact absurd htext.symm (chars_ne_of_isDigit h' hc)
      | int mark' value' =>
          rw [chars_float, chars_int] at htext
          exact absurd htext (text_ne_digits value value')
      | float mark' value' =>
          rw [chars_float, chars_float] at htext
          rw [bare, bare, Number.Magnitude.text_injective htext]
      | string | negate | binary => cases hform'
  | string | negate | binary => cases hform

/-- Whatever follows two expressions, the same text is made of the same ones. -/
theorem chars_append_inj {e e' : Expr} {rest rest' : List Char} (h : e.Spelt strings)
    (h' : e'.Spelt strings') (hrest : Stops rest) (hrest' : Stops rest')
    (htext : e.chars ++ rest = e'.chars ++ rest') : e.bare = e'.bare ∧ rest = rest' := by
  induction e generalizing e' rest rest' with
  | name | int | float =>
      have hform := form_eq_of_chars h h' htext
      -- A word goes on up to the first character that it cannot have.
      have hstops {text : List Char} (hstop : Stops text) : ∀ c ∈ text.head?, (!isStop c) = false :=
        fun c hc => by rw [hstop c hc]; rfl
      have hwords : ∀ c ∈ chars _, (!isStop c) = true :=
        fun c hc => by rw [isStop_eq_false_of_word h rfl c hc]; rfl
      have hwords' : ∀ c ∈ e'.chars, (!isStop c) = true :=
        fun c hc => by rw [isStop_eq_false_of_word h' hform.symm c hc]; rfl
      obtain ⟨hchars, hrests⟩ := run_inj hwords hwords' (hstops hrest) (hstops hrest') htext
      exact ⟨bare_eq_of_word h h' rfl hform.symm hchars, hrests⟩
  | string mark text =>
      have hform := form_eq_of_chars h h' htext
      cases e' with
      | string mark' text' =>
          rw [chars_string, chars_string] at htext
          simp only [List.cons_append, List.append_assoc, List.cons.injEq, true_and] at htext
          -- A string has no quote inside, so the first one ends it.
          obtain ⟨htexts, hrests⟩ := run_inj h.isStringPart_of_string h'.isStringPart_of_string
            (by simp [isStringPart]) (by simp [isStringPart]) htext
          rw [bare, bare, String.toList_inj.mp htexts]
          exact ⟨rfl, (List.cons.inj hrests).2⟩
      | name | int | float | negate | binary => cases hform
  | negate mark operand ih =>
      have hform := form_eq_of_chars h h' htext
      cases e' with
      | negate mark' operand' =>
          rw [chars_negate, chars_negate] at htext
          simp only [List.cons_append, List.append_assoc, List.cons.injEq, true_and] at htext
          have hspelt' : operand'.Spelt strings' := h'
          obtain ⟨hoperands, hrests⟩ := ih h hspelt' (stops_cons rfl _) (stops_cons rfl _) htext
          rw [bare, bare, hoperands]
          exact ⟨rfl, (List.cons.inj hrests).2⟩
      | name | int | float | string | binary => cases hform
  | binary mark op left right ihLeft ihRight =>
      have hform := form_eq_of_chars h h' htext
      cases e' with
      | binary mark' op' left' right' =>
          rw [chars_binary, chars_binary] at htext
          simp only [List.cons_append, List.append_assoc, List.cons.injEq, true_and] at htext
          obtain ⟨hlefts, hsigns⟩ := ihLeft h.1 h'.1 (stops_cons rfl _) (stops_cons rfl _) htext
          obtain ⟨rfl, hrights⟩ := BinOp.sign_append_inj (List.cons.inj hsigns).2
          obtain ⟨hrights, hrests⟩ := ihRight h.2 h'.2 (stops_cons rfl _) (stops_cons rfl _)
            (List.cons.inj hrights).2
          rw [bare, bare, hlefts, hrights]
          exact ⟨rfl, (List.cons.inj hrests).2⟩
      | name | int | float | string | negate => cases hform

end Expr

end ImpToC
