import ImpToC.Syntax.Traversal
import ImpToC.Typing

/-!
# Checkers

A checker keeps one record over many programs: the types of the variables, the places where
they were declared, and the types of expressions by their numbers. The expressions of every
program are numbered from zero, so what is on record under a number may be left over from
another program. A checker reads the types of operands off the record all the same. It works
off an agenda, so its depth does not grow with an expression.
-/

namespace ImpToC

/-- What a checker has on record. -/
structure Checker where
  symbols : Table String Ty
  declaredAt : Table String Location
  types : Table Nat Ty
  deriving Inhabited

namespace Checker

/-- A checker in front of its first program. -/
def empty : Checker := ⟨.empty, .empty, .empty⟩

/-- Why a checker stops. -/
inductive Stop
  /-- There is a mistake in the program. -/
  | fault (f : Fault)
  /-- Something that must be on record is not there. -/
  | missing
  deriving DecidableEq, Repr

/-- A part of the work of a checker. -/
abbrev Pass := EStateM Stop Checker

/-- The type of a variable that is used at a place. -/
def lookup (name : String) (location : Location) : Pass Ty := do
  let c ← get
  match c.symbols.get? name with
  | some type => return type
  | none =>
    let similar := Text.Similarity.closeMatches name c.symbols.keys
    throw (.fault ((Cause.undeclaredVariable name similar).fault location))

/-- Declare a variable. -/
def declare (d : Declaration) : Pass Unit := do
  let c ← get
  match c.symbols.get? d.name with
  | some _ =>
    match c.declaredAt.get? d.name with
    | some first => throw (.fault ((Cause.duplicateVariable d.name (some first)).fault d.location))
    | none => throw .missing
  | none =>
    set { c with
      symbols := c.symbols.insert d.name d.type
      declaredAt := c.declaredAt.insert d.name d.location }

/-- The type on record under a number. -/
def recorded (id : Nat) : Pass Ty := do
  let c ← get
  match c.types.get? id with
  | some type => return type
  | none => throw .missing

/-- The type of an expression with operands on record. -/
def infer : Expr → Pass Ty
  | .name m x => lookup x m.location
  | .int .. => return .int
  | .float .. => return .float
  | .string .. => return .string
  | .negate _ operand => recorded operand.id
  | .binary m op left right => do
    let leftType ← recorded left.id
    let rightType ← recorded right.id
    match op.result? leftType rightType with
    | some type => return type
    | none => throw (.fault ((Cause.illTypedOperation op leftType rightType).fault m.location))

/-- Put the type of an expression on record. -/
def settle (e : Expr) : Pass Unit := do
  let type ← infer e
  modify fun c => { c with types := c.types.insert e.id type }

/-- What is still to be done for an expression: all of it, or what is left when its operands
are on record. -/
inductive Task
  | visit (e : Expr)
  | settle (e : Expr)

/-- How much there is to do. -/
def Task.effort : Task → Nat
  | visit e => 2 * e.size
  | settle _ => 1

def Task.effortAll (agenda : List Task) : Nat := agenda.foldr (fun task n => task.effort + n) 0

/-- Work off an agenda. An expression is settled after its operands, from left to right. -/
def walk : List Task → Pass Unit
  | [] => return ()
  | .settle e :: agenda => do
    settle e
    walk agenda
  | .visit e :: agenda => walk (e.operands.map .visit ++ .settle e :: agenda)
termination_by agenda => Task.effortAll agenda
decreasing_by
  · simp [Task.effortAll, Task.effort]
  · cases e <;> simp [Task.effortAll, Task.effort, Expr.operands, Expr.size] <;> omega

/-- The type of an expression, which is put on record. -/
def checkExpr (e : Expr) : Pass Ty := do
  walk [.visit e]
  recorded e.id

/-- A place where a value of a type is wanted. -/
def require (accepted : Bool) (expected actual : Ty) (location : Location) : Pass Unit :=
  if accepted then return ()
  else throw (.fault ((Cause.unexpectedType expected actual).fault location))

/-- A condition is a whole number. -/
def checkCondition (condition : Expr) (location : Location) : Pass Unit := do
  let type ← checkExpr condition
  require (type == .int) .int type location

mutual

/-- Check a statement. -/
def checkStmt : Stmt → Pass Unit
  | .read location name => do
    let _ ← lookup name location
  | .print _ value => do
    let _ ← checkExpr value
  | .assign location target value => do
    let valueType ← checkExpr value
    let targetType ← lookup target location
    require (targetType.takes valueType) targetType valueType location
  | .branch location condition yes no => do
    checkCondition condition location
    checkStmts yes
    checkStmts no
  | .loop location condition body => do
    checkCondition condition location
    checkStmts body

/-- Check statements in turn. -/
def checkStmts : List Stmt → Pass Unit
  | [] => return ()
  | s :: rest => do
    checkStmt s
    checkStmts rest

end

/-- Check a whole program. -/
def checkProgram (p : Program) : Pass Unit := do
  p.declarations.forM declare
  checkStmts p.statements

/-- Check a program: what stopped the checker, and the checker after. -/
def check (c : Checker) (p : Program) : Option Stop × Checker :=
  match checkProgram p c with
  | .ok _ after => (none, after)
  | .error stop after => (some stop, after)

/-- Check some programs in turn: what stopped the checker each time, and the checker after. -/
def session (c : Checker) : List Program → List (Option Stop × Checker)
  | [] => []
  | p :: rest => c.check p :: (c.check p).2.session rest

end Checker

end ImpToC
