import ImpToC.C.Lowering
import ImpToC.Proofs.Effects
import ImpToC.Proofs.Lowering.Correctness
import ImpToC.Proofs.Syntax.Expressions

/-!
# The temporaries of a program

Every expression but a variable has one temporary. They are numbered in the order of
their definitions in the code, whatever block a definition is in.
-/

namespace ImpToC

/-- An expression with a temporary of its own. -/
def Expr.isComputed : Expr → Bool
  | .name .. => false
  | _ => true

namespace C

mutual

/-- The temporaries that a statement defines, in the order of the text. -/
def Instr.defined : Instr → List Nat
  | .define _ index _ => [index]
  | .branch _ yes no => Instr.definedAll yes ++ Instr.definedAll no
  | .loop body => Instr.definedAll body
  | .assign .. | .print .. | .scan .. | .scanString _ | .leaveUnless _ => []

/-- The temporaries that statements define, in the order of the text. -/
def Instr.definedAll : List Instr → List Nat
  | [] => []
  | i :: rest => i.defined ++ Instr.definedAll rest

end

@[simp] theorem Instr.definedAll_append (first second : List Instr) :
    Instr.definedAll (first ++ second) = Instr.definedAll first ++ Instr.definedAll second := by
  induction first with
  | nil => rfl
  | cons i rest ih => simp [Instr.definedAll, ih]

/-- The code for some expressions defines the next temporaries, one for each of them that
is computed, and nothing else changes. -/
structure Allots (g g' : Generator) (code : List Instr) (es : List Expr) : Prop where
  symbols : g'.symbols = g.symbols
  types : g'.types = g.types
  temporaries : g'.temporaries = g.temporaries + es.countP Expr.isComputed
  defined : Instr.definedAll code =
    List.range' (g.temporaries + 1) (es.countP Expr.isComputed)

namespace Allots

variable {g m g' : Generator} {code code' : List Instr} {es es' : List Expr}

theorem nil (g : Generator) : Allots g g [] [] := ⟨rfl, rfl, rfl, rfl⟩

theorem append (h : Allots g m code es) (h' : Allots m g' code' es') :
    Allots g g' (code ++ code') (es ++ es') where
  symbols := h'.symbols.trans h.symbols
  types := h'.types.trans h.types
  temporaries := by
    rw [h'.temporaries, h.temporaries, List.countP_append, Nat.add_assoc]
  defined := by
    have hnext : g.temporaries + es.countP Expr.isComputed + 1 =
        g.temporaries + 1 + 1 * es.countP Expr.isComputed := by
      omega
    rw [Instr.definedAll_append, h.defined, h'.defined, h.temporaries, List.countP_append, hnext,
      List.range'_append]

/-- Code with the same definitions in another shape. -/
theorem congr (h : Allots g g' code es) (hcode : Instr.definedAll code' = Instr.definedAll code) :
    Allots g g' code' es :=
  ⟨h.symbols, h.types, h.temporaries, hcode.trans h.defined⟩

theorem grows (h : Allots g g' code es) : Grows g g' :=
  ⟨h.symbols, h.types, h.temporaries ▸ Nat.le_add_right ..⟩

/-- A temporary for one more expression. -/
theorem define (h : Allots g g' code es) {e : Expr} (he : e.isComputed = true) (type : Ty)
    (value : Value) :
    Allots g { g' with temporaries := g'.temporaries + 1 }
      (code ++ [.define type (g'.temporaries + 1) value]) (es ++ [e]) := by
  refine h.append ⟨rfl, rfl, ?_, ?_⟩
  · simp [he]
  · simp [Instr.definedAll, Instr.defined, he]

end Allots

variable {g g' : Generator}

/-- The code for an expression defines a temporary for each computed one in it. -/
theorem lowerExpr_allots {e : Expr} {code : List Instr} {place : Place}
    (h : lowerExpr e g = .ok (code, place) g') : Allots g g' code e.postorder := by
  induction e generalizing g g' code place with
  | name mark x =>
      simp only [lowerExpr, bind_eq_ok_iff, typeOf_eq_ok_iff, pure_eq_ok_iff] at h
      obtain ⟨_, _, ⟨-, rfl⟩, heq, rfl⟩ := h
      cases heq
      exact ⟨rfl, rfl, rfl, rfl⟩
  | int mark value | float mark value | string mark value =>
      simp only [lowerExpr, bind_eq_ok_iff, typeOf_eq_ok_iff, define_eq_ok_iff] at h
      obtain ⟨type, _, ⟨-, rfl⟩, rfl, rfl, rfl⟩ := h
      exact (Allots.nil _).define rfl type _
  | negate mark operand ih =>
      rw [lowerExpr, bind_eq_ok_iff] at h
      obtain ⟨type, _, htypeOf, h⟩ := h
      obtain ⟨-, rfl⟩ := typeOf_eq_ok_iff.mp htypeOf
      split at h
      next => cases h
      next =>
        rw [bind_eq_ok_iff] at h
        obtain ⟨⟨inner, operandPlace⟩, m, hoperand, h⟩ := h
        obtain ⟨rfl, rfl, rfl⟩ := define_eq_ok_iff.mp h
        exact (ih hoperand).define rfl type _
  | binary mark op left right ihleft ihright =>
      simp only [lowerExpr, bind_eq_ok_iff] at h
      obtain ⟨type, _, htypeOf, ⟨leftCode, leftPlace⟩, m, hleft, ⟨rightCode, rightPlace⟩, m',
        hright, initializer, _, hinitializer, hdefine⟩ := h
      obtain ⟨-, rfl⟩ := typeOf_eq_ok_iff.mp htypeOf
      obtain ⟨rfl, -⟩ := operation_eq_ok_iff.mp hinitializer
      obtain ⟨rfl, rfl, rfl⟩ := define_eq_ok_iff.mp hdefine
      exact ((ihleft hleft).append (ihright hright)).define rfl type _

/-- A variable is read by its type; strings are read by a function of their own. -/
theorem lowerRead_eq_ok_iff {location : Location} {name : String} {code : List Instr} :
    lowerRead location name g = .ok code g' ↔
      g' = g ∧ ∃ type, g.symbols.get? name = some type ∧
        code = [if type = .string then .scanString name else .scan type name] := by
  unfold lowerRead
  rw [bind_of_ok (get_eq_ok_iff.mpr ⟨rfl, rfl⟩)]
  cases g.symbols.get? name with
  | none => simp
  | some type => cases type <;> simp [and_comm]

theorem lowerRead_allots {location : Location} {name : String} {code : List Instr}
    (h : lowerRead location name g = .ok code g') : Allots g g' code [] := by
  obtain ⟨rfl, type, -, rfl⟩ := lowerRead_eq_ok_iff.mp h
  refine (Allots.nil _).congr ?_
  cases type <;> rfl

mutual

/-- The code for a statement defines a temporary for each computed expression in it. -/
theorem lowerStmt_allots : ∀ (s : Stmt) {g g' : Generator} {code : List Instr},
    lowerStmt s g = .ok code g' → Allots g g' code s.postorder
  | .read location name, g, g', code, h => lowerRead_allots h
  | .print location value, g, g', code, h => by
      simp only [lowerStmt, bind_eq_ok_iff, typeOf_eq_ok_iff, pure_eq_ok_iff] at h
      obtain ⟨⟨valueCode, place⟩, _, hvalue, type, _, ⟨-, rfl⟩, rfl, rfl⟩ := h
      exact (lowerExpr_allots hvalue).congr (by simp [Instr.definedAll, Instr.defined])
  | .assign location target value, g, g', code, h => by
      simp only [lowerStmt, bind_eq_ok_iff, pure_eq_ok_iff] at h
      obtain ⟨⟨valueCode, place⟩, _, hvalue, rfl, rfl⟩ := h
      exact (lowerExpr_allots hvalue).congr (by simp [Instr.definedAll, Instr.defined])
  | .branch location condition yes no, g, g', code, h => by
      simp only [lowerStmt, bind_eq_ok_iff, pure_eq_ok_iff] at h
      obtain ⟨⟨conditionCode, place⟩, m, hcondition, yesCode, m', hyes, noCode, _, hno, rfl, rfl⟩ :=
        h
      have hall := ((lowerExpr_allots hcondition).append (lowerAll_allots yes hyes)).append
        (lowerAll_allots no hno)
      exact hall.congr (by simp [Instr.definedAll, Instr.defined])
  | .loop location condition body, g, g', code, h => by
      simp only [lowerStmt, bind_eq_ok_iff, pure_eq_ok_iff] at h
      obtain ⟨⟨conditionCode, place⟩, m, hcondition, bodyCode, _, hbody, rfl, rfl⟩ := h
      have hall := (lowerExpr_allots hcondition).append (lowerAll_allots body hbody)
      exact hall.congr (by simp [Instr.definedAll, Instr.defined])

theorem lowerAll_allots : ∀ (statements : List Stmt) {g g' : Generator} {code : List Instr},
    lowerAll statements g = .ok code g' → Allots g g' code (Stmt.postorderAll statements)
  | [], g, g', code, h => by
      rw [lowerAll, pure_eq_ok_iff] at h
      obtain ⟨rfl, rfl⟩ := h
      exact .nil _
  | s :: rest, g, g', code, h => by
      simp only [lowerAll, bind_eq_ok_iff, pure_eq_ok_iff] at h
      obtain ⟨sCode, m, hs, restCode, _, hrest, rfl, rfl⟩ := h
      exact (lowerStmt_allots s hs).append (lowerAll_allots rest hrest)

end

end C

end ImpToC
