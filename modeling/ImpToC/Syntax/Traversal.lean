import ImpToC.Syntax

/-!
# The expressions of a program

All expressions of a program in one list: a statement's own expressions before
those of the statements inside it, an operator before its operands, and all else
from left to right. The walk keeps an agenda of what is still to be visited, so
its depth does not grow with the program.
-/

namespace ImpToC

namespace Expr

/-- The operands of an expression. -/
def operands : Expr → List Expr
  | name .. | int .. | float .. | string .. => []
  | negate _ operand => [operand]
  | binary _ _ left right => [left, right]

/-- The number of expressions in an expression. -/
def size : Expr → Nat
  | name .. | int .. | float .. | string .. => 1
  | negate _ operand => operand.size + 1
  | binary _ _ left right => left.size + right.size + 1

end Expr

mutual

/-- The number of statements and expressions in a statement. -/
def Stmt.size : Stmt → Nat
  | .read .. => 1
  | .print _ value | .assign _ _ value => value.size + 1
  | .branch _ condition yes no => condition.size + Stmt.sizeAll yes + Stmt.sizeAll no + 1
  | .loop _ condition body => condition.size + Stmt.sizeAll body + 1

/-- The number of statements and expressions in a list of statements. -/
def Stmt.sizeAll : List Stmt → Nat
  | [] => 0
  | s :: rest => Stmt.size s + Stmt.sizeAll rest

end

/-- Something still to be visited. -/
inductive Visit
  | stmt (s : Stmt)
  | expr (e : Expr)

namespace Visit

/-- The expressions and statements directly inside one. -/
def parts : Visit → List Visit
  | .expr e => e.operands.map .expr
  | .stmt (.read ..) => []
  | .stmt (.print _ value) | .stmt (.assign _ _ value) => [.expr value]
  | .stmt (.branch _ condition yes no) => .expr condition :: yes.map .stmt ++ no.map .stmt
  | .stmt (.loop _ condition body) => .expr condition :: body.map .stmt

/-- The expression visited, if it is one. -/
def here : Visit → List Expr
  | .expr e => [e]
  | .stmt _ => []

def size : Visit → Nat
  | .expr e => e.size
  | .stmt s => s.size

/-- The number of statements and expressions on an agenda. -/
def sizeAll (agenda : List Visit) : Nat := agenda.foldr (fun v n => v.size + n) 0

@[simp] theorem sizeAll_nil : sizeAll [] = 0 := rfl

@[simp] theorem sizeAll_cons (v : Visit) (agenda : List Visit) :
    sizeAll (v :: agenda) = v.size + sizeAll agenda := rfl

@[simp] theorem sizeAll_append (first second : List Visit) :
    sizeAll (first ++ second) = sizeAll first + sizeAll second := by
  induction first with
  | nil => simp
  | cons v rest ih => simp [ih, Nat.add_assoc]

@[simp] theorem sizeAll_map_stmt (statements : List Stmt) :
    sizeAll (statements.map .stmt) = Stmt.sizeAll statements := by
  induction statements with
  | nil => rfl
  | cons s rest ih => simp [Stmt.sizeAll, size, ih]

theorem size_eq_parts (v : Visit) : v.size = sizeAll v.parts + 1 := by
  match v with
  | .expr (.name ..) | .expr (.int ..) | .expr (.float ..) | .expr (.string ..) => rfl
  | .expr (.negate ..) | .expr (.binary ..) => simp [parts, Expr.operands, size, Expr.size]
  | .stmt (.read ..) => rfl
  | .stmt (.print ..) | .stmt (.assign ..) => simp [parts, size, Stmt.size]
  | .stmt (.branch ..) => simp [parts, size, Stmt.size]; omega
  | .stmt (.loop ..) => simp [parts, size, Stmt.size]

/-- Work off an agenda: visit its first entry and put the parts of that one in
front of the others. -/
def expressions : List Visit → List Expr
  | [] => []
  | v :: agenda => v.here ++ expressions (v.parts ++ agenda)
termination_by agenda => sizeAll agenda
decreasing_by
  rw [sizeAll_append, sizeAll_cons, size_eq_parts]
  omega

end Visit

/-- The expressions of a program. -/
def Program.expressions (p : Program) : List Expr :=
  Visit.expressions (p.statements.map .stmt)

end ImpToC
