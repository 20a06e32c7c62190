/-!
# Types and operators

The three types of the language, the type of a binary operation, and which
values a variable can take. Numbers mix freely and the result is a float as soon
as one operand is; strings only meet strings, under `+` and `-`.
-/

namespace ImpToC

/-- The type of a variable or of an expression. -/
inductive Ty
  | int
  | float
  | string
  deriving DecidableEq, Repr, Inhabited

/-- A binary operator. -/
inductive BinOp
  | add
  | sub
  | mul
  | div
  deriving DecidableEq, Repr, Inhabited

namespace Ty

/-- The word for a type. -/
def name : Ty → String
  | .int => "int"
  | .float => "float"
  | .string => "string"

def isNumeric : Ty → Bool
  | .int | .float => true
  | .string => false

/-- A variable of type `target` can take a value of the given type: its own type,
and whole numbers become floats. -/
def takes (target value : Ty) : Bool :=
  target == value || (target == .float && value == .int)

/-- The common type of two numbers. -/
def promote (left right : Ty) : Ty :=
  if left = .int ∧ right = .int then .int else .float

end Ty

namespace BinOp

/-- The sign of an operator. -/
def sign : BinOp → String
  | .add => "+"
  | .sub => "-"
  | .mul => "*"
  | .div => "/"

/-- The operator applies to strings. -/
def onStrings : BinOp → Bool
  | .add | .sub => true
  | .mul | .div => false

/-- The type of an operation, if its operands have types that it takes. -/
def result? (op : BinOp) (left right : Ty) : Option Ty :=
  if left.isNumeric && right.isNumeric then some (left.promote right)
  else if left = .string ∧ right = .string ∧ op.onStrings then some .string
  else none

end BinOp

end ImpToC
