import ImpToC.Number.Shortest
import ImpToC.Syntax
import ImpToC.Text.Quoted

/-!
# Dumps

The full form of a program on one line: every node with all its fields by name.
A dump is written behind a text given to it, so long programs take no time to
put together.
-/

namespace ImpToC

/-- Write the members of a list in brackets, with commas between them. -/
def dumpList {α : Type} (write : String → α → String) (text : String) (members : List α) :
    String :=
  match members with
  | [] => text ++ "[]"
  | first :: rest => rest.foldl (fun t x => write (t ++ ", ") x) (write (text ++ "[") first) ++ "]"

def Location.dump (l : Location) : String :=
  "Position(line=" ++ toString l.line ++ ", column=" ++ toString l.column ++ ", filename=" ++
    Text.Quoted.quote l.file ++ ")"

def Ty.dump : Ty → String
  | .int => "<Type.INT: 'int'>"
  | .float => "<Type.FLOAT: 'float'>"
  | .string => "<Type.STRING: 'string'>"

def BinOp.dump : BinOp → String
  | .add => "<BinaryOperator.ADD: '+'>"
  | .sub => "<BinaryOperator.SUB: '-'>"
  | .mul => "<BinaryOperator.MUL: '*'>"
  | .div => "<BinaryOperator.DIV: '/'>"

def Mark.dump (m : Mark) : String :=
  "location=" ++ m.location.dump ++ ", node_id=" ++ toString m.id

/-- Write an expression behind a text. -/
def Expr.dump (text : String) : Expr → String
  | .name m x =>
    text ++ "IdentifierExpression(" ++ m.dump ++ ", name=" ++ Text.Quoted.quote x ++ ")"
  | .int m value => text ++ "IntLiteral(" ++ m.dump ++ ", value=" ++ toString value ++ ")"
  | .float m value =>
    text ++ "FloatLiteral(" ++ m.dump ++ ", value=" ++ String.ofList value.text ++ ")"
  | .string m value =>
    text ++ "StringLiteral(" ++ m.dump ++ ", value=" ++ Text.Quoted.quote value ++ ")"
  | .negate m operand =>
    operand.dump (text ++ "NegateExpression(" ++ m.dump ++ ", operand=") ++ ")"
  | .binary m op left right =>
    right.dump
      (left.dump
        (text ++ "BinaryExpression(" ++ m.dump ++ ", operator=" ++ op.dump ++ ", left=") ++
        ", right=") ++ ")"

mutual

/-- Write a statement behind a text. -/
def Stmt.dump (text : String) : Stmt → String
  | .read l name =>
    text ++ "ReadStatement(location=" ++ l.dump ++ ", name=" ++ Text.Quoted.quote name ++ ")"
  | .print l value =>
    value.dump (text ++ "PrintStatement(location=" ++ l.dump ++ ", expression=") ++ ")"
  | .assign l target value =>
    value.dump (text ++ "AssignStatement(location=" ++ l.dump ++ ", name=" ++
      Text.Quoted.quote target ++ ", expression=") ++ ")"
  | .branch l condition yes no =>
    let head :=
      condition.dump (text ++ "IfStatement(location=" ++ l.dump ++ ", condition=") ++
        ", then_branch=["
    let middle := Stmt.dumpAll true head yes ++ "], else_branch=["
    Stmt.dumpAll true middle no ++ "])"
  | .loop l condition body =>
    let head :=
      condition.dump (text ++ "WhileStatement(location=" ++ l.dump ++ ", condition=") ++
        ", body=["
    Stmt.dumpAll true head body ++ "])"

/-- Write statements behind a text, with commas between them. -/
def Stmt.dumpAll (first : Bool) (text : String) : List Stmt → String
  | [] => text
  | s :: rest =>
    Stmt.dumpAll false (Stmt.dump (if first then text else text ++ ", ") s) rest

end

/-- Write a declaration behind a text. -/
def Declaration.dump (text : String) (d : Declaration) : String :=
  text ++ "Declaration(location=" ++ d.location.dump ++ ", name=" ++ Text.Quoted.quote d.name ++
    ", var_type=" ++ d.type.dump ++ ")"

/-- The dump of a program. -/
def Program.dump (p : Program) : String :=
  let declarations := dumpList Declaration.dump "Program(declarations=" p.declarations
  Stmt.dumpAll true (declarations ++ ", statements=[") p.statements ++ "])"

end ImpToC
