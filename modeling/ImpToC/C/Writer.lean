import ImpToC.C.Lowering
import ImpToC.C.Text
import ImpToC.Typing.Checker

/-!
# Writers

A writer puts the lines of a C file down one after the other, as it goes over a program. It
keeps the level of the block that it is in and works expressions off an agenda: the place where
the value of an operand has been put is looked up by its number, and the type of an operation is
looked up in front of its operands and once more behind them.
-/

namespace ImpToC.C

/-- What a writer goes by, and what it has written. -/
structure Writer where
  symbols : Table String Ty
  types : Table Nat Ty
  output : Array String
  level : Nat
  temporaries : Nat
  deriving Inhabited

namespace Writer

open Checker (Stop Task)

/-- A writer with tables of types. -/
def ofTables (symbols : Table String Ty) (types : Table Nat Ty) : Writer :=
  ⟨symbols, types, #[], 0, 0⟩

/-- A part of the work of a writer. -/
abbrev Write := EStateM Stop Writer

/-- Write a line in the block. A line without a text is empty. -/
def emit (text : String) : Write Unit :=
  modify fun w =>
    { w with output := w.output.push (if text = "" then "" else line w.level text) }

/-- Write something in a block of its own. -/
def indented (body : Write Unit) : Write Unit := do
  modify fun w => { w with level := w.level + 1 }
  body
  modify fun w => { w with level := w.level - 1 }

/-- The type on record for an expression. -/
def typeOf (e : Expr) : Write Ty := do
  let w ← get
  match w.types.get? e.id with
  | some type => return type
  | none => throw (.fault ((Cause.untypedExpression e.id).fault e.location))

/-! ## Expressions -/

/-- Where the value of an expression has been put. -/
def valueOf (values : Table Nat String) (e : Expr) : Write String :=
  match values.get? e.id with
  | some value => return value
  | none => throw .missing

/-- Write the definition of a new temporary. -/
def define (type : Ty) (value : String) : Write String := do
  modify fun w => { w with temporaries := w.temporaries + 1 }
  let w ← get
  let name := temporaryName w.temporaries
  emit (type.cName ++ " " ++ name ++ " = " ++ value ++ ";")
  return name

/-- Write an operation on values that are there. Strings can only be joined. -/
def operation (values : Table Nat String) (mark : Mark) (type : Ty) (op : BinOp)
    (left right : Expr) : Write String := do
  let leftValue ← valueOf values left
  let rightValue ← valueOf values right
  if type ≠ .string then return leftValue ++ " " ++ op.sign ++ " " ++ rightValue
  else if op = .add then return "ml_concat(" ++ leftValue ++ ", " ++ rightValue ++ ")"
  else throw (.fault ((Cause.stringOperator op).fault mark.location))

/-- Write an expression with operands whose values are there. -/
def settle (values : Table Nat String) (type : Ty) : Expr → Write String
  | .name _ x => return variableName x
  | .int _ value => define type (Value.int value).text
  | .float _ value => define type (Value.float value).text
  | .string _ text => define type (Value.string text).text
  | .negate _ operand => do
    let value ← valueOf values operand
    define type ("-" ++ value)
  | .binary m op left right => do
    let value ← operation values m type op left right
    define type value

/-- Work off an agenda, with the values that are there. -/
def walk : List Task → Table Nat String → Write (Table Nat String)
  | [], values => return values
  | .settle e :: agenda, values => do
    let type ← typeOf e
    let value ← settle values type e
    walk agenda (values.insert e.id value)
  | .visit e :: agenda, values => do
    let type ← typeOf e
    match e with
    | .negate m operand =>
      if type = .string then throw (.fault (Cause.negatedString.fault m.location))
      else walk (.visit operand :: .settle e :: agenda) values
    | .binary _ _ left right => walk (.visit left :: .visit right :: .settle e :: agenda) values
    | leaf =>
      let value ← settle values type leaf
      walk agenda (values.insert leaf.id value)
termination_by agenda => Task.effortAll agenda
decreasing_by
  · simp [Task.effortAll, Task.effort]
  · simp [Task.effortAll, Task.effort, Expr.size]; omega
  · simp [Task.effortAll, Task.effort, Expr.size]; omega
  · cases leaf <;> simp [Task.effortAll, Task.effort, Expr.size]

/-- Write an expression. Its value is in the variable that is given back. -/
def writeExpr (e : Expr) : Write String := do
  let values ← walk [.visit e] .empty
  valueOf values e

/-! ## Statements -/

mutual

/-- Write a statement. -/
def writeStmt : Stmt → Write Unit
  | .read location name => do
    let w ← get
    match w.symbols.get? name with
    | none => throw (.fault ((Cause.missingVariable name).fault location))
    | some .string => emit (variableName name ++ " = ml_read_string();")
    | some type => emit ("scanf(\"" ++ type.cConversion ++ "\", &" ++ variableName name ++ ");")
  | .print _ value => do
    let name ← writeExpr value
    let type ← typeOf value
    emit ("printf(\"" ++ type.cConversion ++ "\\n\", " ++ name ++ ");")
  | .assign _ target value => do
    let name ← writeExpr value
    emit (variableName target ++ " = " ++ name ++ ";")
  | .branch _ condition yes no => do
    let name ← writeExpr condition
    emit ("if (" ++ name ++ ") \x7b")
    indented (writeStmts yes)
    unless no.isEmpty do
      emit "\x7d else \x7b"
      indented (writeStmts no)
    emit "\x7d"
  | .loop _ condition body => do
    emit "while (1) \x7b"
    indented do
      let name ← writeExpr condition
      emit ("if (!" ++ name ++ ") break;")
      writeStmts body
    emit "\x7d"

/-- Write statements in turn. -/
def writeStmts : List Stmt → Write Unit
  | [] => return ()
  | s :: rest => do
    writeStmt s
    writeStmts rest

end

/-- Write the definition of a variable with a zero of its type. -/
def writeVariable (v : String × Ty) : Write Unit :=
  emit (v.2.cName ++ " " ++ variableName v.1 ++ " = " ++ v.2.cZero ++ ";")

/-- Write the headers, and the functions for strings where they are needed. -/
def writePreamble (usesStrings : Bool) : Write Unit := do
  emit "#include <stdio.h>"
  if usesStrings then
    emit "#include <stdlib.h>"
    emit "#include <string.h>"
    emit ""
    modify fun w => { w with output := w.output ++ (concatFunction ++ "" :: readFunction).toArray }
  emit ""

/-- Write the lines of a file for a program. -/
def writeFile (p : Program) : Write Unit := do
  let w ← get
  writePreamble (w.symbols.values.contains .string || w.types.values.contains .string)
  emit "int main(void)"
  emit "\x7b"
  indented do
    w.symbols.entries.forM writeVariable
    unless w.symbols.entries.isEmpty do
      emit ""
    writeStmts p.statements
    emit "return 0;"
  emit "\x7d"

/-- The text of a file for a program. Nothing is left in it of what was written before. -/
def writeProgram (p : Program) : Write String := do
  modify fun w => { w with output := #[], level := 0, temporaries := 0 }
  writeFile p
  let w ← get
  return "\n".intercalate w.output.toList ++ "\n"

/-- Write a file with a writer: its text or what stopped the writer, and the writer after. -/
def generate (w : Writer) (p : Program) : Except Stop String × Writer :=
  match writeProgram p w with
  | .ok text after => (.ok text, after)
  | .error stop after => (.error stop, after)

/-- The texts for some programs, written with one writer in turn. -/
def generateAll (w : Writer) : List Program → List (Except Stop String)
  | [] => []
  | p :: rest => (w.generate p).1 :: (w.generate p).2.generateAll rest

end Writer

end ImpToC.C
