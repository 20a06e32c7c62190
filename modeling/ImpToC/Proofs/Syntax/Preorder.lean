import ImpToC.Syntax.Traversal

/-!
# Expressions in the order of the text

The list of all expressions of a program, by recursion over its tree: an operation before its
operands, a condition before the blocks of its statement, and all else from left to right.
Working off an agenda comes to this list.
-/

namespace ImpToC

/-- The expressions in an expression, each one before its operands. -/
def Expr.preorder : Expr → List Expr
  | e@(.name ..) | e@(.int ..) | e@(.float ..) | e@(.string ..) => [e]
  | e@(.negate _ operand) => e :: operand.preorder
  | e@(.binary _ _ left right) => e :: (left.preorder ++ right.preorder)

mutual

/-- The expressions in a statement, each one before its operands. -/
def Stmt.preorder : Stmt → List Expr
  | .read .. => []
  | .print _ value | .assign _ _ value => value.preorder
  | .branch _ condition yes no =>
    condition.preorder ++ (Stmt.preorderAll yes ++ Stmt.preorderAll no)
  | .loop _ condition body => condition.preorder ++ Stmt.preorderAll body

/-- The expressions in some statements, each one before its operands. -/
def Stmt.preorderAll : List Stmt → List Expr
  | [] => []
  | s :: rest => Stmt.preorder s ++ Stmt.preorderAll rest

end

theorem Stmt.preorderAll_eq_flatMap (statements : List Stmt) :
    Stmt.preorderAll statements = statements.flatMap Stmt.preorder := by
  induction statements with
  | nil => rfl
  | cons s rest ih => rw [Stmt.preorderAll, ih, List.flatMap_cons]

namespace Visit

/-- The expressions in something to be visited, each one before its operands. -/
def preorder : Visit → List Expr
  | .expr e => e.preorder
  | .stmt s => s.preorder

theorem flatMap_preorder_map_stmt (statements : List Stmt) :
    (statements.map Visit.stmt).flatMap preorder = Stmt.preorderAll statements := by
  rw [List.flatMap_map, Stmt.preorderAll_eq_flatMap]
  rfl

/-- What is visited comes first, and then what is in its parts. -/
theorem preorder_eq_here_append (v : Visit) :
    v.preorder = v.here ++ v.parts.flatMap preorder := by
  cases v with
  | expr e => cases e <;> simp [preorder, here, parts, Expr.operands, Expr.preorder]
  | stmt s =>
      cases s <;> simp [preorder, here, parts, Stmt.preorder, flatMap_preorder_map_stmt]

/-- An agenda is worked off in the order of the text. -/
theorem expressions_eq_flatMap (agenda : List Visit) :
    expressions agenda = agenda.flatMap preorder := by
  induction agenda using expressions.induct with
  | case1 => simp [expressions]
  | case2 v agenda ih =>
      rw [expressions, ih, List.flatMap_append, List.flatMap_cons, preorder_eq_here_append v,
        List.append_assoc]

end Visit

/-- The list of all expressions of a program follows its text. -/
theorem Program.expressions_eq_preorderAll (p : Program) :
    p.expressions = Stmt.preorderAll p.statements := by
  rw [expressions, Visit.expressions_eq_flatMap, Visit.flatMap_preorder_map_stmt]

end ImpToC
