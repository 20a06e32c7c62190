import ImpToC.Diagnostic
import ImpToC.Syntax
import ImpToC.Table
import ImpToC.Text.Similarity

/-!
# Typing

The types of variables and expressions. Checking a program goes through its
declarations and then its statements and stops at the first mistake; what has been
found out by then stays on record, and a further program can be checked against
the same record.
-/

namespace ImpToC

/-- What is on record: the declared variables, and the types of expressions by
their numbers. -/
structure Typing where
  scope : Table String Declaration
  types : Table Nat Ty
  deriving Inhabited

namespace Typing

/-- The record in front of the first program. -/
def empty : Typing := ⟨.empty, .empty⟩

/-- The types of the declared variables. -/
def symbols (t : Typing) : Table String Ty where
  entries := t.scope.entries.map fun e => (e.1, e.2.type)
  nodup := by
    rw [List.map_map]
    exact t.scope.nodup

/-- A part of the check: it reads and extends the record, and may find a fault. -/
abbrev Check := EStateM Fault Typing

/-- The type of a variable that is used at a place. -/
def lookup (name : String) (location : Location) : Check Ty := do
  let t ← get
  match t.scope.get? name with
  | some d => return d.type
  | none =>
    let similar := Text.Similarity.closeMatches name t.scope.keys
    throw ((Cause.undeclaredVariable name similar).fault location)

/-- Put the type of an expression on record. -/
def record (id : Nat) (type : Ty) : Check Ty := do
  modify fun t => { t with types := t.types.insert id type }
  return type

/-- A place where a value of a type is wanted. -/
def require (accepted : Bool) (expected actual : Ty) (location : Location) : Check Unit :=
  if accepted then return ()
  else throw ((Cause.unexpectedType expected actual).fault location)

/-- Declare a variable. -/
def declare (d : Declaration) : Check Unit := do
  let t ← get
  match t.scope.get? d.name with
  | some first =>
    throw ((Cause.duplicateVariable d.name (some first.location)).fault d.location)
  | none => set { t with scope := t.scope.insert d.name d }

end Typing

open Typing

/-- Find the type of an expression, after those of its operands. -/
def Expr.check : Expr → Check Ty
  | .name m x => do
    let type ← lookup x m.location
    record m.id type
  | .int m _ => record m.id .int
  | .float m _ => record m.id .float
  | .string m _ => record m.id .string
  | .negate m operand => do
    let type ← operand.check
    record m.id type
  | .binary m op left right => do
    let leftType ← left.check
    let rightType ← right.check
    match op.result? leftType rightType with
    | some type => record m.id type
    | none => throw ((Cause.illTypedOperation op leftType rightType).fault m.location)

/-- A condition is a whole number. -/
def Expr.checkCondition (condition : Expr) (location : Location) : Check Unit := do
  let type ← condition.check
  require (type == .int) .int type location

mutual

/-- Check a statement. -/
def Stmt.check : Stmt → Check Unit
  | .read location name => do
    let _ ← lookup name location
  | .print _ value => do
    let _ ← value.check
  | .assign location target value => do
    let valueType ← value.check
    let targetType ← lookup target location
    require (targetType.takes valueType) targetType valueType location
  | .branch location condition yes no => do
    condition.checkCondition location
    Stmt.checkAll yes
    Stmt.checkAll no
  | .loop location condition body => do
    condition.checkCondition location
    Stmt.checkAll body

/-- Check statements in turn. -/
def Stmt.checkAll : List Stmt → Check Unit
  | [] => return ()
  | s :: rest => do
    Stmt.check s
    Stmt.checkAll rest

end

/-- Check a whole program. -/
def Program.check (p : Program) : Check Unit := do
  p.declarations.forM Typing.declare
  Stmt.checkAll p.statements

/-- Check a program against a record: what was wrong, and the record after. -/
def Typing.extend (t : Typing) (p : Program) : Option Fault × Typing :=
  match p.check t with
  | .ok _ after => (none, after)
  | .error fault after => (some fault, after)

/-- Check some programs in turn: what was wrong with each, and the record after
it. -/
def Typing.extendAll (t : Typing) : List Program → List (Option Fault × Typing)
  | [] => []
  | p :: rest => t.extend p :: (t.extend p).2.extendAll rest

end ImpToC
