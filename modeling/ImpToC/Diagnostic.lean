import ImpToC.Text.Lines
import ImpToC.Token
import ImpToC.Types

/-!
# Diagnostics

What can be wrong with a program. A cause is a value of its own for each kind of
mistake; its wording and its hint are functions of it. A fault is a cause at a
place, and a diagnostic adds the source line to show below the message.
-/

namespace ImpToC

/-- The part of the compiler that finds a mistake. -/
inductive Family
  | general
  | lexical
  | syntactic
  | semantic
  | generation
  deriving DecidableEq, Repr, Inhabited

/-- What is wrong. -/
inductive Cause
  /-- A character starts no token. -/
  | illegalCharacter (char : Char)
  /-- A string has no closing quote on its line. -/
  | unterminatedString
  /-- A token stands where only others may. -/
  | unexpectedToken (found : Token) (expected : List Kind)
  /-- An integer literal is too large. -/
  | invalidInt (text : String)
  /-- A float literal is too large or has no digit after its point. -/
  | invalidFloat (text : String)
  /-- Too many parentheses, negations and blocks are open at once. -/
  | nestingTooDeep
  /-- A variable is declared again. -/
  | duplicateVariable (name : String) (first : Option Location)
  /-- A variable is used that is not declared. -/
  | undeclaredVariable (name : String) (similar : List String)
  /-- A condition or an assigned value has the wrong type. -/
  | unexpectedType (expected actual : Ty)
  /-- An operator does not take operands of these types. -/
  | illTypedOperation (op : BinOp) (left right : Ty)
  /-- An expression has no type on record. -/
  | untypedExpression (id : Nat)
  /-- A variable has no type on record. -/
  | missingVariable (name : String)
  /-- A construct has no counterpart in C. -/
  | unsupported (feature : String) (alternative : Option String)
  /-- A mistake that has nothing but a message. -/
  | plain (family : Family) (message : String) (hint : Option String)
  deriving DecidableEq, Repr

namespace Cause

def family : Cause → Family
  | .illegalCharacter _ | .unterminatedString => .lexical
  | .unexpectedToken .. | .invalidInt _ | .invalidFloat _ | .nestingTooDeep => .syntactic
  | .duplicateVariable .. | .undeclaredVariable .. | .unexpectedType .. | .illTypedOperation .. =>
    .semantic
  | .untypedExpression _ | .missingVariable _ | .unsupported .. => .generation
  | .plain family .. => family

/-- A negation whose operand is a string. -/
def negatedString : Cause := .unsupported "negation of a string" none

/-- An operator between strings that C has no counterpart for. -/
def stringOperator (op : BinOp) : Cause :=
  .unsupported ("string operator '" ++ op.sign ++ "'")
    (some "only '+' can be compiled for strings")

/-- The wording of a cause. -/
def message : Cause → String
  | .illegalCharacter char =>
    "illegal character '" ++ char.toString ++ "' (0x" ++
      String.ofList ((Text.hex 2 char.toNat).map Char.toUpper) ++ ")"
  | .unterminatedString => "unterminated string literal"
  | .unexpectedToken found _ => "unexpected " ++ found.lexeme.describe
  | .invalidInt text => "invalid integer literal '" ++ text ++ "'"
  | .invalidFloat text => "invalid float literal '" ++ text ++ "'"
  | .nestingTooDeep => "expression or block nested too deeply"
  | .duplicateVariable name _ => "redeclaration of variable '" ++ name ++ "'"
  | .undeclaredVariable name _ => "undeclared variable '" ++ name ++ "'"
  | .unexpectedType expected actual =>
    "type mismatch: expected '" ++ expected.name ++ "', got '" ++ actual.name ++ "'"
  | .illTypedOperation op left right =>
    "invalid operands to '" ++ op.sign ++ "': '" ++ left.name ++ "' and '" ++ right.name ++ "'"
  | .untypedExpression id => "no type recorded for expression #" ++ toString id
  | .missingVariable name => "variable '" ++ name ++ "' missing from symbol table"
  | .unsupported feature _ => "unsupported feature: " ++ feature
  | .plain _ message _ => message

/-- The hint for the kinds of token that may stand at a place. -/
def expectation (expected : List Kind) : String :=
  match Kind.inOrder expected with
  | [kind] => "expected " ++ kind.display
  | kinds => "expected one of: " ++ ", ".intercalate (kinds.map Kind.display)

/-- The hint for a cause: how to mend it. At most three similar names are
offered. -/
def hint : Cause → Option String
  | .illegalCharacter _ | .unexpectedType .. | .illTypedOperation .. | .missingVariable _ => none
  | .unterminatedString => some "add closing '\"' to complete the string"
  | .unexpectedToken _ expected => some (expectation expected)
  | .invalidInt _ => some "integer literals must fit in 64 bits"
  | .invalidFloat _ => some "write at least one digit after the decimal point"
  | .nestingTooDeep => some "split the expression using intermediate variables"
  | .duplicateVariable name first =>
    first.map fun l => "'" ++ name ++ "' was first declared at " ++ l.render
  | .undeclaredVariable _ [] => none
  | .undeclaredVariable _ similar =>
    some ("did you mean " ++
      ", ".intercalate ((similar.take 3).map fun s => "'" ++ s ++ "'") ++ "?")
  | .untypedExpression _ => some "run the type checker before code generation"
  | .unsupported _ alternative => alternative
  | .plain _ _ hint => hint

end Cause

/-- A cause at a place. -/
structure Fault where
  cause : Cause
  location : Option Location
  deriving DecidableEq, Repr

/-- A fault with the source line that it is on. -/
structure Diagnostic where
  fault : Fault
  sourceLine : Option String
  deriving DecidableEq, Repr

/-- The fault of a cause at a known place. -/
def Cause.fault (cause : Cause) (location : Location) : Fault := ⟨cause, some location⟩

namespace Fault

/-- A diagnostic that quotes no line. -/
def unquoted (f : Fault) : Diagnostic := ⟨f, none⟩

/-- A diagnostic that quotes the line with the number of the fault's location. -/
def quoting (f : Fault) (lines : List (List Char)) : Diagnostic :=
  ⟨f, f.location.bind fun l => (Text.lineAt? lines l.line).map String.ofList⟩

end Fault

namespace Diagnostic

def cause (d : Diagnostic) : Cause := d.fault.cause

def location (d : Diagnostic) : Option Location := d.fault.location

/-- The quoted line and below it a caret under the column of the fault, both
moved right by four. A column before the first has no caret. -/
def excerpt (d : Diagnostic) : List String :=
  match d.sourceLine, d.location with
  | some line, some l =>
    ("    " ++ line) ::
      if 0 < l.column then
        [String.ofList (List.replicate (4 + (l.column - 1).toNat) ' ' ++ ['^'])]
      else []
  | _, _ => []

/-- The lines of a diagnostic: the message after its place, the quoted line, and
the hint if there is one to show. -/
def report (d : Diagnostic) : List String :=
  let place :=
    match d.location with
    | some l => l.render ++ ": "
    | none => ""
  let hint :=
    match d.cause.hint with
    | some hint => if hint = "" then [] else ["hint: " ++ hint]
    | none => []
  (place ++ "error: " ++ d.cause.message) :: d.excerpt ++ hint

/-- The full text of a diagnostic. -/
def render (d : Diagnostic) : String := "\n".intercalate d.report

end Diagnostic

end ImpToC
