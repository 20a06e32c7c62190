import ImpToC.Syntax.Traversal

/-!
# Expressions in the order of their construction

The expressions of a program with operands in front of the operation that they
belong to. The list of all expressions has the same ones in another order.
-/

namespace ImpToC

namespace Expr

/-- The expressions in an expression, operands first. -/
def postorder : Expr → List Expr
  | e@(.name ..) | e@(.int ..) | e@(.float ..) | e@(.string ..) => [e]
  | e@(.negate _ operand) => operand.postorder ++ [e]
  | e@(.binary _ _ left right) => left.postorder ++ right.postorder ++ [e]

/-- An expression comes last of those in it. -/
theorem mem_postorder_self (e : Expr) : e ∈ e.postorder := by
  cases e <;> simp [postorder]

/-- An expression comes behind its operands and all that is in them. -/
theorem postorder_eq (e : Expr) : e.postorder = e.operands.flatMap postorder ++ [e] := by
  cases e <;> simp [postorder, operands]

/-- What is in an operand is in the expression. -/
theorem postorder_subset {e x : Expr} (h : x ∈ e.postorder) : x.postorder ⊆ e.postorder := by
  induction e with
  | name | int | float | string =>
      cases List.mem_singleton.mp h
      exact List.Subset.refl _
  | negate mark operand ih =>
      rcases List.mem_append.mp h with h | h
      · exact List.Subset.trans (ih h) (List.subset_append_left _ _)
      · cases List.mem_singleton.mp h
        exact List.Subset.refl _
  | binary mark op left right ihLeft ihRight =>
      rcases List.mem_append.mp h with h | h
      · refine List.Subset.trans ?_ (List.subset_append_left _ _)
        rcases List.mem_append.mp h with h | h
        · exact List.Subset.trans (ihLeft h) (List.subset_append_left _ _)
        · exact List.Subset.trans (ihRight h) (List.subset_append_right _ _)
      · cases List.mem_singleton.mp h
        exact List.Subset.refl _

end Expr

mutual

/-- The expressions in a statement, operands first. -/
def Stmt.postorder : Stmt → List Expr
  | .read .. => []
  | .print _ value | .assign _ _ value => value.postorder
  | .branch _ condition yes no =>
    condition.postorder ++ Stmt.postorderAll yes ++ Stmt.postorderAll no
  | .loop _ condition body => condition.postorder ++ Stmt.postorderAll body

/-- The expressions in some statements, operands first. -/
def Stmt.postorderAll : List Stmt → List Expr
  | [] => []
  | s :: rest => Stmt.postorder s ++ Stmt.postorderAll rest

end

@[simp] theorem Stmt.postorderAll_append (first second : List Stmt) :
    Stmt.postorderAll (first ++ second) =
      Stmt.postorderAll first ++ Stmt.postorderAll second := by
  induction first with
  | nil => rfl
  | cons s rest ih => simp [Stmt.postorderAll, ih]

theorem Stmt.postorderAll_eq_flatMap (statements : List Stmt) :
    Stmt.postorderAll statements = statements.flatMap Stmt.postorder := by
  induction statements with
  | nil => rfl
  | cons s rest ih => simp [Stmt.postorderAll, ih]

mutual

/-- What is in an expression of a statement is in the statement. -/
theorem Stmt.postorder_subset {x : Expr} : ∀ s : Stmt, x ∈ s.postorder →
    x.postorder ⊆ s.postorder
  | .read .., h => nomatch h
  | .print _ _, h | .assign _ _ _, h => Expr.postorder_subset h
  | .branch _ _ yes no, h => by
      rcases List.mem_append.mp h with h | h
      · refine List.Subset.trans ?_ (List.subset_append_left _ _)
        rcases List.mem_append.mp h with h | h
        · exact List.Subset.trans (Expr.postorder_subset h) (List.subset_append_left _ _)
        · exact List.Subset.trans (Stmt.postorderAll_subset yes h) (List.subset_append_right _ _)
      · exact List.Subset.trans (Stmt.postorderAll_subset no h) (List.subset_append_right _ _)
  | .loop _ _ body, h => by
      rcases List.mem_append.mp h with h | h
      · exact List.Subset.trans (Expr.postorder_subset h) (List.subset_append_left _ _)
      · exact List.Subset.trans (Stmt.postorderAll_subset body h) (List.subset_append_right _ _)

theorem Stmt.postorderAll_subset {x : Expr} : ∀ statements : List Stmt,
    x ∈ Stmt.postorderAll statements → x.postorder ⊆ Stmt.postorderAll statements
  | [], h => nomatch h
  | s :: rest, h => by
      rcases List.mem_append.mp h with h | h
      · exact List.Subset.trans (Stmt.postorder_subset s h) (List.subset_append_left _ _)
      · exact List.Subset.trans (Stmt.postorderAll_subset rest h) (List.subset_append_right _ _)

end

/-- The expressions of a program, operands first. -/
def Program.postorder (p : Program) : List Expr := Stmt.postorderAll p.statements

namespace Visit

/-- The expressions in something to be visited, operands first. -/
def postorder : Visit → List Expr
  | .expr e => e.postorder
  | .stmt s => s.postorder

theorem flatMap_postorder_map_stmt (statements : List Stmt) :
    (statements.map Visit.stmt).flatMap postorder = Stmt.postorderAll statements := by
  rw [List.flatMap_map, Stmt.postorderAll_eq_flatMap]
  rfl

/-- What is visited and what is in its parts make up all that is in it. -/
theorem here_append_parts_perm (v : Visit) :
    (v.here ++ v.parts.flatMap postorder).Perm v.postorder := by
  cases v with
  | expr e =>
      cases e with
      | name | int | float | string => exact .refl _
      | negate mark operand =>
          simpa [here, parts, Expr.operands, postorder, Expr.postorder] using
            (List.perm_append_singleton (Expr.negate mark operand) operand.postorder).symm
      | binary mark op left right =>
          simpa [here, parts, Expr.operands, postorder, Expr.postorder] using
            (List.perm_append_singleton (Expr.binary mark op left right)
              (left.postorder ++ right.postorder)).symm
  | stmt s =>
      cases s with
      | read | print | assign =>
          simp [here, parts, postorder, Stmt.postorder]
      | branch | loop =>
          simp [here, parts, postorder, Stmt.postorder, flatMap_postorder_map_stmt]

/-- An agenda visits each expression in its entries once. -/
theorem expressions_perm (agenda : List Visit) :
    (expressions agenda).Perm (agenda.flatMap postorder) := by
  induction agenda using expressions.induct with
  | case1 => simp [expressions]
  | case2 v agenda ih =>
      -- An entry gives way to its parts, which are visited before the rest.
      rw [expressions, List.flatMap_cons]
      rw [List.flatMap_append] at ih
      have hrest := ih.append_left v.here
      rw [← List.append_assoc] at hrest
      exact hrest.trans (v.here_append_parts_perm.append_right _)

end Visit

/-- The list of all expressions has those of the program in the order of their
construction, in another order. -/
theorem Program.expressions_perm (p : Program) : p.expressions.Perm p.postorder := by
  have h := Visit.expressions_perm (p.statements.map .stmt)
  rwa [Visit.flatMap_postorder_map_stmt] at h

end ImpToC
