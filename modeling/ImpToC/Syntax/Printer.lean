import ImpToC.Syntax.Outline

/-!
# Printers

A printer puts the lines of an outline down one after the other and keeps the level that it is at.
It works an expression off an agenda: the text of an operand is put down under the number of the
operand and looked up there for the text of the operation.
-/

namespace ImpToC

/-- Whether types are shown and what they are, and what has been printed. -/
structure Printer where
  types : Option (Table Nat Ty)
  output : Array String
  level : Nat
  deriving Inhabited

namespace Printer

/-- A printer in front of its first program. -/
def ofTypes (types : Option (Table Nat Ty)) : Printer := ⟨types, #[], 0⟩

/-! ## Expressions -/

/-- The text of an expression without a type, if the texts of its operands have been put down. -/
def plainText? (texts : Table Nat String) : Expr → Option String
  | .name _ x => some x
  | .int _ value => some (toString value)
  | .float _ value => some (String.ofList value.text)
  | .string _ text => some ("\"" ++ text ++ "\"")
  | .negate _ operand => do
    let text ← texts.get? operand.id
    return "(-" ++ text ++ ")"
  | .binary _ op left right => do
    let leftText ← texts.get? left.id
    let rightText ← texts.get? right.id
    return "(" ++ leftText ++ " " ++ op.sign ++ " " ++ rightText ++ ")"

/-- The text of an expression, if the texts of its operands have been put down. -/
def nodeText? (types : Option (Table Nat Ty)) (texts : Table Nat String) (e : Expr) :
    Option String := do
  let text ← plainText? texts e
  return e.annotate types text

/-- Work off an agenda with the texts that have been put down. -/
def walk? (types : Option (Table Nat Ty)) :
    List Writing → Table Nat String → Option (Table Nat String)
  | [], texts => some texts
  | .close e :: agenda, texts => do
    let text ← nodeText? types texts e
    walk? types agenda (texts.insert e.id text)
  | .enter e :: agenda, texts =>
    match e with
    | .negate _ operand => walk? types (.enter operand :: .close e :: agenda) texts
    | .binary _ _ left right => walk? types (.enter left :: .enter right :: .close e :: agenda) texts
    | leaf => do
      let text ← nodeText? types texts leaf
      walk? types agenda (texts.insert leaf.id text)
termination_by agenda => Writing.effortAll agenda
decreasing_by
  · simp [Writing.effortAll, Writing.effort]
  · simp [Writing.effortAll, Writing.effort, Expr.size]; omega
  · simp [Writing.effortAll, Writing.effort, Expr.size]; omega
  · cases leaf <;> simp [Writing.effortAll, Writing.effort, Expr.size]

/-- The text of an expression, if no text is missing on the way. -/
def exprText? (types : Option (Table Nat Ty)) (e : Expr) : Option String := do
  let texts ← walk? types [.enter e] .empty
  texts.get? e.id

/-! ## Statements -/

/-- Why a printer stops. -/
inductive Stop
  /-- A text that must have been put down is not there. -/
  | missing
  deriving DecidableEq, Repr

/-- A part of the work of a printer. -/
abbrev Print := EStateM Stop Printer

/-- Print a line at the level. -/
def emit (text : String) : Print Unit :=
  modify fun pr => { pr with output := pr.output.push (ImpToC.indented pr.level text) }

/-- Print something one level further to the right. -/
def indented (body : Print Unit) : Print Unit := do
  modify fun pr => { pr with level := pr.level + 1 }
  body
  modify fun pr => { pr with level := pr.level - 1 }

/-- The text of an expression. -/
def exprText (e : Expr) : Print String := do
  let pr ← get
  match exprText? pr.types e with
  | some text => return text
  | none => throw .missing

mutual

/-- Print a statement. -/
def printStmt : Stmt → Print Unit
  | .read _ name => emit ("Read " ++ name)
  | .print _ value => do
    let text ← exprText value
    emit ("Print " ++ text)
  | .assign _ target value => do
    let text ← exprText value
    emit ("Assign " ++ target ++ " = " ++ text)
  | .branch _ condition yes no => do
    let text ← exprText condition
    emit ("If " ++ text)
    indented do
      emit "Then:"
      indented (printStmts yes)
      unless no.isEmpty do
        emit "Else:"
        indented (printStmts no)
  | .loop _ condition body => do
    let text ← exprText condition
    emit ("While " ++ text)
    indented (printStmts body)

/-- Print statements in turn. -/
def printStmts : List Stmt → Print Unit
  | [] => return ()
  | s :: rest => do
    printStmt s
    printStmts rest

end

/-- Print a declaration. -/
def printDeclaration (d : Declaration) : Print Unit :=
  emit ("Var " ++ d.name ++ " : " ++ d.type.name)

/-- Print a program. Nothing is left of what was printed before. -/
def printProgram (p : Program) : Print String := do
  modify fun pr => { pr with output := #[], level := 0 }
  emit "Program"
  indented do
    p.declarations.forM printDeclaration
    printStmts p.statements
  let pr ← get
  return "\n".intercalate pr.output.toList

/-- Print a program with a printer: the text or what stopped the printer, and the printer after. -/
def print (pr : Printer) (p : Program) : Except Stop String × Printer :=
  match printProgram p pr with
  | .ok text after => (.ok text, after)
  | .error stop after => (.error stop, after)

end Printer

end ImpToC
