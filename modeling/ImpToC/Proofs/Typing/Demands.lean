import ImpToC.Proofs.Typing.Checkers

/-!
# Demands of statements

What statements demand of a checker, one thing after the other: that an expression with operands
on record has a type, that a variable is declared, that a value fits a variable, that a condition
is a whole number. A checker of statements meets their demands in turn and does nothing else.
-/

namespace ImpToC

/-- Something that a statement demands. -/
inductive Demand
  /-- An expression has a type; those of its operands are on record. -/
  | typed (e : Expr)
  /-- A variable is there to read into. -/
  | read (location : Location) (name : String)
  /-- A variable is there, and takes a value that has a type. -/
  | takes (location : Location) (name : String) (value : Expr)
  /-- A condition that has a type is a whole number. -/
  | whole (location : Location) (condition : Expr)

/-- The demands on an expression: operands come first, from left to right. -/
def Expr.demands (e : Expr) : List Demand := e.postorder.map .typed

/-- The demands that a statement makes itself, in front of those in its blocks. -/
def Stmt.own : Stmt → List Demand
  | .read location name => [.read location name]
  | .print _ value => value.demands
  | .assign location name value => value.demands ++ [.takes location name value]
  | .branch location condition _ _ | .loop location condition _ =>
    condition.demands ++ [.whole location condition]

mutual

/-- The demands of a statement. -/
def Stmt.demands : Stmt → List Demand
  | s@(.read ..) | s@(.print ..) | s@(.assign ..) => s.own
  | s@(.branch _ _ yes no) => s.own ++ (Stmt.demandsAll yes ++ Stmt.demandsAll no)
  | s@(.loop _ _ body) => s.own ++ Stmt.demandsAll body

/-- The demands of some statements. -/
def Stmt.demandsAll : List Stmt → List Demand
  | [] => []
  | s :: rest => Stmt.demands s ++ Stmt.demandsAll rest

end

namespace Demand

/-- The expression whose type is put on record for a demand. -/
def exprs : Demand → List Expr
  | typed e => [e]
  | read .. | takes .. | whole .. => []

/-- Behind some expressions a demand can be met: those that it reads the types of are among
them, and the value or the condition that it is about is the last one. -/
def Ready (es : List Expr) : Demand → Prop
  | typed e => ∀ operand ∈ e.operands, operand ∈ es
  | read .. => True
  | takes _ _ value => es.getLast? = some value
  | whole _ condition => es.getLast? = some condition

/-- Each of some demands is ready to be met when its turn comes. -/
inductive Ordered : List Expr → List Demand → Prop
  | nil (es : List Expr) : Ordered es []
  | cons {es : List Expr} {demand : Demand} {rest : List Demand} :
      demand.Ready es → Ordered (es ++ demand.exprs) rest → Ordered es (demand :: rest)

namespace Ordered

variable {es : List Expr} {demand : Demand} {first second : List Demand}

theorem single (h : demand.Ready es) : Ordered es [demand] := .cons h (.nil _)

theorem append (hfirst : Ordered es first)
    (hsecond : Ordered (es ++ first.flatMap exprs) second) : Ordered es (first ++ second) := by
  induction hfirst with
  | nil =>
      rwa [List.flatMap_nil, List.append_nil] at hsecond
  | cons h _ ih =>
      apply Ordered.cons h
      apply ih
      rwa [List.append_assoc, ← List.flatMap_cons]

end Ordered

end Demand

namespace Expr

theorem flatMap_exprs_demands (e : Expr) : e.demands.flatMap Demand.exprs = e.postorder := by
  rw [demands, List.flatMap_map]
  exact List.flatMap_singleton' e.postorder

/-- Operands are on record when the type of their operation is demanded. -/
theorem ordered_demands (e : Expr) (es : List Expr) : Demand.Ordered es e.demands := by
  induction e generalizing es with
  | name | int | float | string => exact .single nofun
  | negate m operand ih =>
      have hsplit : (negate m operand).demands =
          operand.demands ++ [.typed (negate m operand)] := by
        simp [demands, postorder]
      rw [hsplit]
      apply (ih es).append
      apply Demand.Ordered.single
      rw [flatMap_exprs_demands]
      exact List.forall_mem_singleton.mpr (List.mem_append_right es operand.mem_postorder_self)
  | binary m op left right ihleft ihright =>
      have hsplit : (binary m op left right).demands =
          left.demands ++ (right.demands ++ [.typed (binary m op left right)]) := by
        simp [demands, postorder]
      rw [hsplit]
      apply (ihleft es).append
      apply (ihright _).append
      apply Demand.Ordered.single
      rw [flatMap_exprs_demands, flatMap_exprs_demands]
      intro operand hoperand
      rcases List.mem_cons.mp hoperand with rfl | hright
      · apply List.mem_append_left
        exact List.mem_append_right es operand.mem_postorder_self
      · rw [List.mem_singleton.mp hright]
        exact List.mem_append_right _ right.mem_postorder_self

/-- Behind its demands, an expression is the last one on record. -/
theorem getLast?_append_demands (e : Expr) (es : List Expr) :
    (es ++ e.demands.flatMap Demand.exprs).getLast? = some e := by
  rw [flatMap_exprs_demands, postorder_eq, ← List.append_assoc, List.getLast?_concat]

end Expr

namespace Stmt

theorem flatMap_exprs_own_branch (l : Location) (condition : Expr) (yes no : List Stmt) :
    (branch l condition yes no).own.flatMap Demand.exprs = condition.postorder := by
  rw [own, List.flatMap_append, condition.flatMap_exprs_demands]
  exact List.append_nil _

theorem flatMap_exprs_own_loop (l : Location) (condition : Expr) (body : List Stmt) :
    (loop l condition body).own.flatMap Demand.exprs = condition.postorder := by
  rw [own, List.flatMap_append, condition.flatMap_exprs_demands]
  exact List.append_nil _

theorem ordered_own (s : Stmt) (es : List Expr) : Demand.Ordered es s.own := by
  cases s with
  | read => exact .single trivial
  | print _ value => exact value.ordered_demands es
  | assign _ _ value =>
      exact (value.ordered_demands es).append (.single (value.getLast?_append_demands es))
  | branch _ condition | loop _ condition =>
      exact (condition.ordered_demands es).append (.single (condition.getLast?_append_demands es))

end Stmt

mutual

theorem Stmt.flatMap_exprs_demands : ∀ s : Stmt, s.demands.flatMap Demand.exprs = s.postorder
  | .read .. => rfl
  | .print _ value => value.flatMap_exprs_demands
  | .assign l name value => by
      rw [Stmt.demands, Stmt.own, List.flatMap_append, value.flatMap_exprs_demands]
      exact List.append_nil _
  | .branch l condition yes no => by
      rw [Stmt.demands, List.flatMap_append, List.flatMap_append, Stmt.flatMap_exprs_own_branch,
        Stmt.flatMap_exprs_demandsAll yes, Stmt.flatMap_exprs_demandsAll no, Stmt.postorder,
        List.append_assoc]
  | .loop l condition body => by
      rw [Stmt.demands, List.flatMap_append, Stmt.flatMap_exprs_own_loop,
        Stmt.flatMap_exprs_demandsAll body, Stmt.postorder]

theorem Stmt.flatMap_exprs_demandsAll : ∀ statements : List Stmt,
    (Stmt.demandsAll statements).flatMap Demand.exprs = Stmt.postorderAll statements
  | [] => rfl
  | s :: rest => by
      rw [Stmt.demandsAll, List.flatMap_append, Stmt.flatMap_exprs_demands s,
        Stmt.flatMap_exprs_demandsAll rest, Stmt.postorderAll]

end

mutual

theorem Stmt.ordered_demands : ∀ (s : Stmt) (es : List Expr), Demand.Ordered es s.demands
  | .read .., es | .print .., es | .assign .., es => by
      rw [Stmt.demands]
      exact Stmt.ordered_own _ es
  | .branch l condition yes no, es => by
      rw [Stmt.demands]
      exact (Stmt.ordered_own (.branch l condition yes no) es).append
        ((Stmt.ordered_demandsAll yes _).append (Stmt.ordered_demandsAll no _))
  | .loop l condition body, es => by
      rw [Stmt.demands]
      exact (Stmt.ordered_own (.loop l condition body) es).append (Stmt.ordered_demandsAll body _)

theorem Stmt.ordered_demandsAll : ∀ (statements : List Stmt) (es : List Expr),
    Demand.Ordered es (Stmt.demandsAll statements)
  | [], es => .nil es
  | s :: rest, es => (Stmt.ordered_demands s es).append (Stmt.ordered_demandsAll rest _)

end

namespace Checker

/-! ## Meeting demands -/

/-- Meet a demand. -/
def meet : Demand → Pass Unit
  | .typed e => settle e
  | .read location name => do
    let _ ← lookup name location
  | .takes location name value => do
    let valueType ← recorded value.id
    let targetType ← lookup name location
    require (targetType.takes valueType) targetType valueType location
  | .whole location condition => do
    let type ← recorded condition.id
    require (type == .int) .int type location

/-- Meet some demands in turn. -/
def meetAll : List Demand → Pass Unit
  | [] => return ()
  | demand :: rest => do
    meet demand
    meetAll rest

@[simp] theorem meetAll_append (first second : List Demand) :
    meetAll (first ++ second) = (do meetAll first; meetAll second) := by
  induction first with
  | nil => simp [meetAll]
  | cons demand rest ih => simp [meetAll, ih]

/-- Working off a visit meets the demands on the expression. -/
theorem walk_visit_eq_meetAll (e : Expr) (agenda : List Task) :
    walk (.visit e :: agenda) = (do meetAll e.demands; walk agenda) := by
  induction e generalizing agenda with
  | name | int | float | string =>
      rw [walk_visit, Expr.operands, List.map_nil, List.nil_append, walk]
      simp [Expr.demands, Expr.postorder, meetAll, meet]
  | negate m operand ih =>
      rw [walk_visit]
      show walk (.visit operand :: .settle (.negate m operand) :: agenda) = _
      rw [ih, walk]
      simp [Expr.demands, Expr.postorder, meetAll, meet]
  | binary m op left right ihleft ihright =>
      rw [walk_visit]
      show walk (.visit left :: .visit right :: .settle (.binary m op left right) :: agenda) = _
      rw [ihleft, ihright, walk]
      simp [Expr.demands, Expr.postorder, meetAll, meet]

/-- When the demands on an expression are met, its type is on record. -/
theorem exists_recorded_of_demands {e : Expr} {c c' : Checker}
    (h : meetAll e.demands c = .ok () c') : ∃ type, recorded e.id c' = .ok type c' := by
  rw [Expr.demands, Expr.postorder_eq, List.map_append, meetAll_append] at h
  obtain ⟨_, m, -, hself⟩ := bind_eq_ok_iff.mp h
  obtain ⟨_, m', hsettle, hend⟩ := bind_eq_ok_iff.mp hself
  obtain ⟨type, m'', -, hmodify⟩ := bind_eq_ok_iff.mp hsettle
  cases hend
  cases hmodify
  exact ⟨type, recorded_of_get? (Table.get?_insert_self _ e.id type)⟩

theorem checkExpr_bind_eq {β : Type} (e : Expr) (next : Ty → Pass β) :
    (do let type ← checkExpr e; next type) =
      (do meetAll e.demands; let type ← recorded e.id; next type) := by
  simp [checkExpr, walk_visit_eq_meetAll, walk]

theorem checkCondition_eq_meetAll (condition : Expr) (l : Location) :
    checkCondition condition l = meetAll (condition.demands ++ [.whole l condition]) := by
  unfold checkCondition
  rw [checkExpr_bind_eq]
  simp [meetAll, meet]

mutual

/-- A checker of a statement meets its demands in turn. -/
theorem checkStmt_eq_meetAll : ∀ s : Stmt, checkStmt s = meetAll s.demands
  | .read l name => by simp [checkStmt, Stmt.demands, Stmt.own, meetAll, meet]
  | .print _ value => by
      rw [checkStmt, checkExpr_bind_eq, Stmt.demands, Stmt.own]
      funext c
      cases hmeet : meetAll value.demands c with
      | error stop c' => rw [bind_of_error hmeet]
      | ok _ c' =>
          obtain ⟨type, htype⟩ := exists_recorded_of_demands hmeet
          rw [bind_of_ok hmeet, bind_of_ok htype]
          rfl
  | .assign l name value => by
      rw [checkStmt, checkExpr_bind_eq, Stmt.demands, Stmt.own]
      simp [meetAll, meet]
  | .branch l condition yes no => by
      rw [checkStmt, checkCondition_eq_meetAll, checkStmts_eq_meetAll yes,
        checkStmts_eq_meetAll no, Stmt.demands, Stmt.own]
      simp [meetAll]
  | .loop l condition body => by
      rw [checkStmt, checkCondition_eq_meetAll, checkStmts_eq_meetAll body, Stmt.demands,
        Stmt.own]
      simp [meetAll]

theorem checkStmts_eq_meetAll : ∀ statements : List Stmt,
    checkStmts statements = meetAll (Stmt.demandsAll statements)
  | [] => by rw [checkStmts, Stmt.demandsAll, meetAll]
  | s :: rest => by
      rw [checkStmts, Stmt.demandsAll, meetAll_append, checkStmt_eq_meetAll s,
        checkStmts_eq_meetAll rest]

end

end Checker

end ImpToC
