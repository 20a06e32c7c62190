import ImpToC.Proofs.Number.Digits
import ImpToC.Syntax.Outline

/-!
# Texts of expressions

An expression is written out by working off an agenda with a stack of texts. Entering it puts
its text on the stack and leaves all else as it is, so the text of an operation is made of the
texts of its operands, and none of them is ever missing.
-/

namespace ImpToC

variable (types : Option (Table Nat Ty))

namespace Writing

theorem run_nil (texts : List String) : run types [] texts = texts := by
  rw [run]

theorem run_enter_eq (e : Expr) (agenda : List Writing) (texts : List String) :
    run types (enter e :: agenda) texts =
      run types (e.operands.map enter ++ close e :: agenda) texts := by
  rw [run]

theorem run_close (e : Expr) (agenda : List Writing) (texts : List String) :
    run types (close e :: agenda) texts =
      run types agenda (e.annotate types (e.shape (texts.take e.operands.length).reverse) ::
        texts.drop e.operands.length) := by
  rw [run]

theorem run_leaf {e : Expr} (h : e.operands = []) (agenda : List Writing) (texts : List String) :
    run types (enter e :: agenda) texts =
      run types agenda (e.annotate types (e.shape []) :: texts) := by
  rw [run_enter_eq, h, List.map_nil, List.nil_append, run_close, h]
  rfl

/-- Whatever else there is to do, an expression adds one text, and it is the same each time. -/
theorem exists_run_enter (e : Expr) : ∃ text, ∀ agenda texts,
    run types (enter e :: agenda) texts = run types agenda (text :: texts) := by
  induction e with
  | name | int | float | string => exact ⟨_, run_leaf types rfl⟩
  | negate mark operand ih =>
      obtain ⟨text, htext⟩ := ih
      let e := Expr.negate mark operand
      refine ⟨e.annotate types (e.shape [text]), fun agenda texts => ?_⟩
      rw [run_enter_eq]
      exact (htext _ texts).trans (run_close types e agenda _)
  | binary mark op left right ihLeft ihRight =>
      obtain ⟨leftText, hleft⟩ := ihLeft
      obtain ⟨rightText, hright⟩ := ihRight
      let e := Expr.binary mark op left right
      refine ⟨e.annotate types (e.shape [leftText, rightText]), fun agenda texts => ?_⟩
      rw [run_enter_eq]
      exact (hleft _ texts).trans ((hright _ _).trans (run_close types e agenda _))

/-- Entering an expression leaves its text on the stack. -/
theorem run_enter (e : Expr) (agenda : List Writing) (texts : List String) :
    run types (enter e :: agenda) texts = run types agenda (e.render types :: texts) := by
  obtain ⟨text, htext⟩ := exists_run_enter types e
  have hrender : e.render types = text := by rw [Expr.render, htext, run_nil, List.headD_cons]
  rw [htext, hrender]

/-- An agenda of operands leaves their texts on the stack, the last one on top. -/
theorem run_enterAll (es : List Expr) (agenda : List Writing) (texts : List String) :
    run types (es.map enter ++ agenda) texts =
      run types agenda ((es.map (Expr.render types)).reverse ++ texts) := by
  induction es generalizing texts with
  | nil => rfl
  | cons e rest ih =>
      rw [List.map_cons, List.cons_append, run_enter, ih, List.map_cons, List.reverse_cons,
        List.append_assoc, List.singleton_append]

end Writing

/-- The text of an expression is made of the texts of its operands. -/
theorem Expr.render_eq (e : Expr) :
    e.render types = e.annotate types (e.shape (e.operands.map (render types))) := by
  have hlength : e.operands.length = (e.operands.map (render types)).reverse.length := by simp
  rw [render, Writing.run_enter_eq, Writing.run_enterAll, Writing.run_close, Writing.run_nil,
    List.headD_cons, hlength, List.take_left, List.reverse_reverse]

/-! ## Plain texts -/

namespace Expr

/-- The characters of an expression that is shown without types. -/
def chars (e : Expr) : List Char := (e.render none).toList

variable (mark : Mark)

@[simp] theorem chars_name (text : String) : (name mark text).chars = text.toList := by
  rw [chars, render_eq]
  rfl

@[simp] theorem chars_int (value : Nat) : (int mark value).chars = Number.digits value := by
  rw [chars, render_eq]
  exact Number.toList_toString value

@[simp] theorem chars_float (value : Number.Magnitude) : (float mark value).chars = value.text := by
  rw [chars, render_eq]
  exact String.toList_ofList

@[simp] theorem chars_string (text : String) :
    (string mark text).chars = '"' :: text.toList ++ ['"'] := by
  rw [chars, render_eq]
  simp [annotate, shape]

@[simp] theorem chars_negate (operand : Expr) :
    (negate mark operand).chars = '(' :: '-' :: operand.chars ++ [')'] := by
  rw [chars, render_eq]
  simp [annotate, shape, operands, chars]

@[simp] theorem chars_binary (op : BinOp) (left right : Expr) :
    (binary mark op left right).chars =
      '(' :: left.chars ++ ' ' :: op.sign.toList ++ ' ' :: right.chars ++ [')'] := by
  rw [chars, render_eq]
  simp [annotate, shape, operands, chars]

end Expr

end ImpToC
