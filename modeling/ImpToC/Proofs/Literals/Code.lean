import ImpToC.Proofs.Lowering.TypedCode
import ImpToC.Proofs.Syntax.Preorder

/-!
# Literals in code

The literals of a program are the literals in its code, in the same order. Each of them is
what a temporary of its own is defined as, and the temporary has the type of the literal.
-/

namespace ImpToC

open C

/-- A literal, as it goes into code: its type and its value. -/
def Expr.literal? : Expr → Option (Ty × Value)
  | .int _ value => some (.int, .int value)
  | .float _ value => some (.float, .float value)
  | .string _ text => some (.string, .string text)
  | .name .. | .negate .. | .binary .. => none

namespace C

def Value.isLiteral : Value → Bool
  | .int _ | .float _ | .string _ => true
  | .negate _ | .operation .. | .concat .. => false

mutual

/-- The literals that a statement defines temporaries as, each with the type of its temporary,
in the order of the text. -/
def Instr.literals : Instr → List (Ty × Value)
  | .define type _ value => if value.isLiteral then [(type, value)] else []
  | .branch _ yes no => Instr.literalsAll yes ++ Instr.literalsAll no
  | .loop body => Instr.literalsAll body
  | .assign .. | .print .. | .scan .. | .scanString _ | .leaveUnless _ => []

/-- The literals that statements define temporaries as, in the order of the text. -/
def Instr.literalsAll : List Instr → List (Ty × Value)
  | [] => []
  | i :: rest => i.literals ++ Instr.literalsAll rest

end

@[simp] theorem Instr.literalsAll_append (first second : List Instr) :
    Instr.literalsAll (first ++ second) =
      Instr.literalsAll first ++ Instr.literalsAll second := by
  induction first with
  | nil => rfl
  | cons i rest ih => simp [Instr.literalsAll, ih]

/-- Behind some code a temporary is defined as something that is no literal. -/
theorem Instr.literalsAll_concat_define (code : List Instr) (type : Ty) (index : Nat)
    {value : Value} (h : value.isLiteral = false) :
    Instr.literalsAll (code ++ [.define type index value]) = Instr.literalsAll code := by
  simp [Instr.literalsAll, Instr.literals, h]

/-! ## Lines -/

mutual

/-- Each of these literals stands in a line that defines a temporary. -/
theorem Instr.exists_line_of_literals (level : Nat) {type : Ty} {value : Value} :
    ∀ i : Instr, (type, value) ∈ i.literals → ∃ level' index,
      line level' (type.cName ++ " " ++ temporaryName index ++ " = " ++ value.text ++ ";") ∈
        i.lines level
  | .define _ index _, h => by
      rw [Instr.literals] at h
      split at h
      next =>
        cases List.mem_singleton.mp h
        exact ⟨level, index, List.mem_singleton_self _⟩
      next => cases h
  | .branch condition yes no, h => by
      rw [Instr.literals, List.mem_append] at h
      rw [Instr.lines]
      rcases h with hyes | hno
      · obtain ⟨level', index, hline⟩ := Instr.exists_line_of_literalsAll (level + 1) yes hyes
        exact ⟨level', index, by simp [hline]⟩
      · obtain ⟨level', index, hline⟩ := Instr.exists_line_of_literalsAll (level + 1) no hno
        have hne : no.isEmpty = false := by
          cases no with
          | nil => cases hno
          | cons => rfl
        exact ⟨level', index, by simp [hne, hline]⟩
  | .loop body, h => by
      rw [Instr.literals] at h
      rw [Instr.lines]
      obtain ⟨level', index, hline⟩ := Instr.exists_line_of_literalsAll (level + 1) body h
      exact ⟨level', index, by simp [hline]⟩

theorem Instr.exists_line_of_literalsAll (level : Nat) {type : Ty} {value : Value} :
    ∀ code : List Instr, (type, value) ∈ Instr.literalsAll code → ∃ level' index,
      line level' (type.cName ++ " " ++ temporaryName index ++ " = " ++ value.text ++ ";") ∈
        Instr.linesAll level code
  | i :: rest, h => by
      rw [Instr.literalsAll, List.mem_append] at h
      rw [Instr.linesAll]
      rcases h with hfirst | hrest
      · obtain ⟨level', index, hline⟩ := Instr.exists_line_of_literals level i hfirst
        exact ⟨level', index, List.mem_append_left _ hline⟩
      · obtain ⟨level', index, hline⟩ := Instr.exists_line_of_literalsAll level rest hrest
        exact ⟨level', index, List.mem_append_right _ hline⟩

end

/-! ## Lowering -/

variable {declared : List Declaration} {g g' : Generator}

/-- The code for an expression has the literals of the expression. -/
theorem lowerExpr_literals {e : Expr} {code : List Instr} {place : Place}
    (hrecorded : Recorded declared g.types e.postorder)
    (h : lowerExpr e g = .ok (code, place) g') :
    Instr.literalsAll code = e.preorder.filterMap Expr.literal? := by
  induction e generalizing g g' code place with
  | name mark x =>
      simp only [lowerExpr, bind_eq_ok_iff, typeOf_eq_ok_iff, pure_eq_ok_iff] at h
      obtain ⟨_, _, -, heq, -⟩ := h
      cases heq
      rfl
  | int mark value | float mark value | string mark value =>
      simp only [lowerExpr, bind_eq_ok_iff, typeOf_eq_ok_iff, define_eq_ok_iff] at h
      obtain ⟨type, _, ⟨htype, rfl⟩, rfl, -, -⟩ := h
      cases hrecorded.hasType htype
      rfl
  | negate mark operand ih =>
      rw [lowerExpr, bind_eq_ok_iff] at h
      obtain ⟨type, _, htypeOf, h⟩ := h
      obtain ⟨-, rfl⟩ := typeOf_eq_ok_iff.mp htypeOf
      split at h
      next => cases h
      next =>
        rw [bind_eq_ok_iff] at h
        obtain ⟨⟨inner, operandPlace⟩, m, hoperand, h⟩ := h
        obtain ⟨rfl, -, -⟩ := define_eq_ok_iff.mp h
        rw [Instr.literalsAll_concat_define _ _ _ rfl]
        exact ih hrecorded.left hoperand
  | binary mark op left right ihleft ihright =>
      simp only [lowerExpr, bind_eq_ok_iff] at h
      obtain ⟨type, _, htypeOf, ⟨leftCode, leftPlace⟩, m, hleft, ⟨rightCode, rightPlace⟩, m',
        hright, initializer, _, hinitializer, hdefine⟩ := h
      obtain ⟨-, rfl⟩ := typeOf_eq_ok_iff.mp htypeOf
      obtain ⟨rfl, -, -⟩ := define_eq_ok_iff.mp hdefine
      have hinit : initializer.isLiteral = false := by
        rcases (operation_eq_ok_iff.mp hinitializer).2 with ⟨-, rfl⟩ | ⟨-, -, rfl⟩ <;> rfl
      rw [Expr.postorder] at hrecorded
      have hgrows := (lowerExpr_allots hleft).grows
      rw [Instr.literalsAll_concat_define _ _ _ hinit, Instr.literalsAll_append,
        ihleft hrecorded.left.left hleft, ihright (hgrows.recorded hrecorded.left.right) hright]
      exact List.filterMap_append.symm

theorem lowerRead_literals {location : Location} {name : String} {code : List Instr}
    (h : lowerRead location name g = .ok code g') : Instr.literalsAll code = [] := by
  obtain ⟨-, type, -, rfl⟩ := lowerRead_eq_ok_iff.mp h
  cases type <;> rfl

mutual

/-- The code for a statement has the literals of the expressions in it. -/
theorem lowerStmt_literals : ∀ (s : Stmt) {g g' : Generator} {code : List Instr},
    Recorded declared g.types s.postorder → lowerStmt s g = .ok code g' →
    Instr.literalsAll code = s.preorder.filterMap Expr.literal?
  | .read location name, g, g', code, _, h => lowerRead_literals h
  | .print location value, g, g', code, hrecorded, h => by
      simp only [lowerStmt, bind_eq_ok_iff, typeOf_eq_ok_iff, pure_eq_ok_iff] at h
      obtain ⟨⟨valueCode, place⟩, _, hvalue, type, _, -, rfl, -⟩ := h
      rw [Instr.literalsAll_append, lowerExpr_literals hrecorded hvalue]
      exact List.append_nil _
  | .assign location target value, g, g', code, hrecorded, h => by
      simp only [lowerStmt, bind_eq_ok_iff, pure_eq_ok_iff] at h
      obtain ⟨⟨valueCode, place⟩, _, hvalue, rfl, -⟩ := h
      rw [Instr.literalsAll_append, lowerExpr_literals hrecorded hvalue]
      exact List.append_nil _
  | .branch location condition yes no, g, g', code, hrecorded, h => by
      simp only [lowerStmt, bind_eq_ok_iff, pure_eq_ok_iff] at h
      obtain ⟨⟨conditionCode, place⟩, m, hcondition, yesCode, m', hyes, noCode, _, hno, rfl, -⟩ := h
      rw [Stmt.postorder] at hrecorded
      have hgrows := (lowerExpr_allots hcondition).grows
      have hboth := hgrows.trans (lowerAll_allots yes hyes).grows
      have hyesCode := lowerAll_literals yes (hgrows.recorded hrecorded.left.right) hyes
      have hnoCode := lowerAll_literals no (hboth.recorded hrecorded.right) hno
      rw [Instr.literalsAll_append, lowerExpr_literals hrecorded.left.left hcondition]
      simp [Instr.literalsAll, Instr.literals, Stmt.preorder, hyesCode, hnoCode]
  | .loop location condition body, g, g', code, hrecorded, h => by
      simp only [lowerStmt, bind_eq_ok_iff, pure_eq_ok_iff] at h
      obtain ⟨⟨conditionCode, place⟩, m, hcondition, bodyCode, _, hbody, rfl, -⟩ := h
      rw [Stmt.postorder] at hrecorded
      have hgrows := (lowerExpr_allots hcondition).grows
      have hbodyCode := lowerAll_literals body (hgrows.recorded hrecorded.right) hbody
      have hconditionCode := lowerExpr_literals hrecorded.left hcondition
      simp [Instr.literalsAll, Instr.literals, Stmt.preorder, hbodyCode, hconditionCode]

theorem lowerAll_literals : ∀ (statements : List Stmt) {g g' : Generator} {code : List Instr},
    Recorded declared g.types (Stmt.postorderAll statements) →
    lowerAll statements g = .ok code g' →
    Instr.literalsAll code = (Stmt.preorderAll statements).filterMap Expr.literal?
  | [], g, g', code, _, h => by
      rw [lowerAll, pure_eq_ok_iff] at h
      obtain ⟨rfl, -⟩ := h
      rfl
  | s :: rest, g, g', code, hrecorded, h => by
      simp only [lowerAll, bind_eq_ok_iff, pure_eq_ok_iff] at h
      obtain ⟨sCode, m, hs, restCode, _, hrest, rfl, -⟩ := h
      rw [Stmt.postorderAll] at hrecorded
      have hgrows := (lowerStmt_allots s hs).grows
      rw [Instr.literalsAll_append, lowerStmt_literals s hrecorded.left hs,
        lowerAll_literals rest (hgrows.recorded hrecorded.right) hrest]
      exact List.filterMap_append.symm

end

/-- The file for a program has the literals of the program. -/
theorem Lowered.literals {p : Program} {f : File} (h : Lowered p f g g') :
    Instr.literalsAll f.body = p.expressions.filterMap Expr.literal? := by
  rw [p.expressions_eq_preorderAll]
  exact lowerAll_literals p.statements h.recorded h.body

/-- Each literal of a file stands in a line that defines a temporary. -/
theorem File.exists_line_of_literals {f : File} {type : Ty} {value : Value}
    (h : (type, value) ∈ Instr.literalsAll f.body) : ∃ level index,
      line level (type.cName ++ " " ++ temporaryName index ++ " = " ++ value.text ++ ";") ∈
        f.lines := by
  obtain ⟨level, index, hline⟩ := Instr.exists_line_of_literalsAll 1 f.body h
  exact ⟨level, index, by simp [File.lines, hline]⟩

end C

end ImpToC
