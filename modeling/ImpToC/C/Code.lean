import ImpToC.Number.Binary64
import ImpToC.Types

/-!
# C code

The part of C that programs are compiled to: numbered temporaries that are
defined once, variables that are assigned, input and output, branches, and loops
that are left from within.
-/

namespace ImpToC.C

/-- Something that holds a value: a variable or a temporary. -/
inductive Place
  | variable (name : String)
  | temporary (index : Nat)
  deriving DecidableEq, Repr, Inhabited

/-- What a temporary is defined as. -/
inductive Value
  | int (value : Nat)
  | float (value : Number.Magnitude)
  | string (text : String)
  | negate (operand : Place)
  | operation (op : BinOp) (left right : Place)
  | concat (left right : Place)
  deriving DecidableEq, Repr, Inhabited

/-- A statement of C. -/
inductive Instr
  | define (type : Ty) (index : Nat) (value : Value)
  | assign (target : String) (value : Place)
  | print (type : Ty) (value : Place)
  | scan (type : Ty) (target : String)
  | scanString (target : String)
  | branch (condition : Place) (yes no : List Instr)
  | loop (body : List Instr)
  | leaveUnless (condition : Place)
  deriving Inhabited

/-- A file of C: whether it has the functions for strings, its variables in the
order of their definitions, and the statements of its main function with the
number of their temporaries. -/
structure File where
  usesStrings : Bool
  symbols : List (String × Ty)
  body : List Instr
  temporaries : Nat
  deriving Inhabited

end ImpToC.C
