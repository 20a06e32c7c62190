import ImpToC.C.Code
import ImpToC.Diagnostic
import ImpToC.Syntax
import ImpToC.Table

/-!
# Lowering

A typed program becomes C code. Every expression but a variable is computed into
a temporary of its own, after its operands from left to right; a variable stays
where it is until its value is used. The condition of a loop is computed at the
start of each round.
-/

namespace ImpToC.C

/-- What code is made from: the types of variables and expressions, and how many
temporaries there are so far. -/
structure Generator where
  symbols : Table String Ty
  types : Table Nat Ty
  temporaries : Nat
  deriving Inhabited

/-- A generator with tables of types. -/
def Generator.ofTables (symbols : Table String Ty) (types : Table Nat Ty) : Generator :=
  ⟨symbols, types, 0⟩

/-- A part of the lowering. -/
abbrev Lower := EStateM Fault Generator

/-- The type on record for an expression. -/
def typeOf (mark : Mark) : Lower Ty := do
  let g ← get
  match g.types.get? mark.id with
  | some type => return type
  | none => throw ((Cause.untypedExpression mark.id).fault mark.location)

/-- The number of a new temporary. -/
def newTemporary : Lower Nat := do
  let g ← get
  let index := g.temporaries + 1
  set { g with temporaries := index }
  return index

/-- Code that defines a new temporary after some other code. -/
def define (before : List Instr) (type : Ty) (value : Value) : Lower (List Instr × Place) := do
  let index ← newTemporary
  return (before ++ [.define type index value], .temporary index)

/-- The operation of C on values of a type. Strings can only be joined. -/
def operation (mark : Mark) (type : Ty) (op : BinOp) (left right : Place) : Lower Value :=
  if type ≠ .string then return .operation op left right
  else if op = .add then return .concat left right
  else throw ((Cause.stringOperator op).fault mark.location)

/-- Code for an expression, and the place of its value. -/
def lowerExpr : Expr → Lower (List Instr × Place)
  | .name m x => do
    let _ ← typeOf m
    return ([], .variable x)
  | .int m value => do
    let type ← typeOf m
    define [] type (.int value)
  | .float m value => do
    let type ← typeOf m
    define [] type (.float value)
  | .string m text => do
    let type ← typeOf m
    define [] type (.string text)
  | .negate m operand => do
    let type ← typeOf m
    if type = .string then throw (Cause.negatedString.fault m.location)
    else
      let (code, place) ← lowerExpr operand
      define code type (.negate place)
  | .binary m op left right => do
    let type ← typeOf m
    let (leftCode, leftPlace) ← lowerExpr left
    let (rightCode, rightPlace) ← lowerExpr right
    let value ← operation m type op leftPlace rightPlace
    define (leftCode ++ rightCode) type value

/-- Code that reads a variable. -/
def lowerRead (location : Location) (name : String) : Lower (List Instr) := do
  let g ← get
  match g.symbols.get? name with
  | some .string => return [.scanString name]
  | some type => return [.scan type name]
  | none => throw ((Cause.missingVariable name).fault location)

mutual

/-- Code for a statement. -/
def lowerStmt : Stmt → Lower (List Instr)
  | .read location name => lowerRead location name
  | .print _ value => do
    let (code, place) ← lowerExpr value
    let type ← typeOf value.mark
    return code ++ [.print type place]
  | .assign _ target value => do
    let (code, place) ← lowerExpr value
    return code ++ [.assign target place]
  | .branch _ condition yes no => do
    let (code, place) ← lowerExpr condition
    let yesCode ← lowerAll yes
    let noCode ← lowerAll no
    return code ++ [.branch place yesCode noCode]
  | .loop _ condition body => do
    let (code, place) ← lowerExpr condition
    let bodyCode ← lowerAll body
    return [.loop (code ++ .leaveUnless place :: bodyCode)]

/-- Code for statements in turn. -/
def lowerAll : List Stmt → Lower (List Instr)
  | [] => return []
  | s :: rest => do
    let code ← lowerStmt s
    let restCode ← lowerAll rest
    return code ++ restCode

end

/-- A file for a program. Its temporaries are numbered from one. -/
def lowerProgram (p : Program) : Lower File := do
  modify fun g => { g with temporaries := 0 }
  let body ← lowerAll p.statements
  let g ← get
  return {
    usesStrings := g.symbols.values.contains .string || g.types.values.contains .string
    symbols := g.symbols.entries
    body := body
    temporaries := g.temporaries }

/-- Make a file with a generator: the file or what was wrong, and the generator
after. -/
def Generator.generate (g : Generator) (p : Program) : Except Fault File × Generator :=
  match lowerProgram p g with
  | .ok file after => (.ok file, after)
  | .error fault after => (.error fault, after)

/-- The files for some programs, made with one generator in turn. -/
def Generator.generateAll (g : Generator) : List Program → List (Except Fault File)
  | [] => []
  | p :: rest => (g.generate p).1 :: (g.generate p).2.generateAll rest

end ImpToC.C
