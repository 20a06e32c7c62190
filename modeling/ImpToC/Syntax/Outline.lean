import ImpToC.Number.Shortest
import ImpToC.Syntax.Traversal
import ImpToC.Table

/-!
# Outlines

An indented outline of a program, one line a declaration or a statement. Every
operation stands in parentheses of its own. With a table of types at hand each
expression is shown in brackets with its type, or with a question mark if it has
none on record.
-/

namespace ImpToC

namespace Expr

/-- The text of an expression from the texts of its operands. -/
def shape : Expr → List String → String
  | name _ x, _ => x
  | int _ value, _ => toString value
  | float _ value, _ => String.ofList value.text
  | string _ text, _ => "\"" ++ text ++ "\""
  | negate .., [operand] => "(-" ++ operand ++ ")"
  | binary _ op .., [left, right] => "(" ++ left ++ " " ++ op.sign ++ " " ++ right ++ ")"
  | _, _ => ""

/-- A text with the type of the expression that it stands for, if types are
shown. -/
def annotate (types : Option (Table Nat Ty)) (e : Expr) (text : String) : String :=
  match types with
  | none => text
  | some table =>
    "[" ++ text ++ " : " ++ ((table.get? e.id).map Ty.name).getD "?" ++ "]"

end Expr

/-- What is still to be done when an expression is written out: to enter one, or
to put one together from the texts of its operands. -/
inductive Writing
  | enter (e : Expr)
  | close (e : Expr)

namespace Writing

/-- How much there is to do. -/
def effort : Writing → Nat
  | enter e => 2 * e.size
  | close _ => 1

def effortAll (agenda : List Writing) : Nat := agenda.foldr (fun w n => w.effort + n) 0

/-- Work off an agenda with the texts written so far, the last one first. An
expression is closed after its operands have been entered from left to right. -/
def run (types : Option (Table Nat Ty)) : List Writing → List String → List String
  | [], texts => texts
  | close e :: agenda, texts =>
    let count := e.operands.length
    run types agenda
      (e.annotate types (e.shape (texts.take count).reverse) :: texts.drop count)
  | enter e :: agenda, texts =>
    run types (e.operands.map enter ++ close e :: agenda) texts
termination_by agenda => effortAll agenda
decreasing_by
  · simp [effortAll, effort]
  · cases e <;> simp [effortAll, effort, Expr.operands, Expr.size] <;> omega

end Writing

/-- The text of an expression. -/
def Expr.render (types : Option (Table Nat Ty)) (e : Expr) : String :=
  (Writing.run types [.enter e] []).headD ""

/-- A line moved right by two for each level. -/
def indented (level : Nat) (text : String) : String :=
  String.ofList (List.replicate (2 * level) ' ') ++ text

mutual

/-- The lines of a statement. -/
def Stmt.outline (types : Option (Table Nat Ty)) (level : Nat) : Stmt → List String
  | .read _ name => [indented level ("Read " ++ name)]
  | .print _ value => [indented level ("Print " ++ value.render types)]
  | .assign _ target value =>
    [indented level ("Assign " ++ target ++ " = " ++ value.render types)]
  | .branch _ condition yes no =>
    indented level ("If " ++ condition.render types) ::
      indented (level + 1) "Then:" :: Stmt.outlineAll types (level + 2) yes ++
      if no.isEmpty then []
      else indented (level + 1) "Else:" :: Stmt.outlineAll types (level + 2) no
  | .loop _ condition body =>
    indented level ("While " ++ condition.render types) ::
      Stmt.outlineAll types (level + 1) body

/-- The lines of a list of statements. -/
def Stmt.outlineAll (types : Option (Table Nat Ty)) (level : Nat) : List Stmt → List String
  | [] => []
  | s :: rest => Stmt.outline types level s ++ Stmt.outlineAll types level rest

end

/-- The line of a declaration. -/
def Declaration.outline (d : Declaration) : String :=
  indented 1 ("Var " ++ d.name ++ " : " ++ d.type.name)

/-- The lines of a program. -/
def Program.outline (types : Option (Table Nat Ty)) (p : Program) : List String :=
  "Program" :: p.declarations.map Declaration.outline ++ Stmt.outlineAll types 1 p.statements

/-- The outline of a program as a text. -/
def Program.render (types : Option (Table Nat Ty)) (p : Program) : String :=
  "\n".intercalate (p.outline types)

end ImpToC
