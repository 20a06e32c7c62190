import ImpToC.Location
import ImpToC.Number.Binary64
import ImpToC.Types

/-!
# Programs

The tree of a program: declarations first, then statements. Every expression
carries a number that tells it from the others of its program, and the location
of its first character.
-/

namespace ImpToC

/-- The number and the location of an expression. -/
structure Mark where
  id : Nat
  location : Location
  deriving DecidableEq, Repr, Inhabited

/-- An expression. -/
inductive Expr
  | name (mark : Mark) (name : String)
  | int (mark : Mark) (value : Nat)
  | float (mark : Mark) (value : Number.Magnitude)
  | string (mark : Mark) (text : String)
  | negate (mark : Mark) (operand : Expr)
  | binary (mark : Mark) (op : BinOp) (left right : Expr)
  deriving DecidableEq, Repr, Inhabited

/-- A statement. A branch without an alternative has no statements there. -/
inductive Stmt
  | read (location : Location) (name : String)
  | print (location : Location) (value : Expr)
  | assign (location : Location) (target : String) (value : Expr)
  | branch (location : Location) (condition : Expr) (yes no : List Stmt)
  | loop (location : Location) (condition : Expr) (body : List Stmt)
  deriving Inhabited

mutual

/-- Two statements are the same, locations and numbers included. -/
def Stmt.same : Stmt → Stmt → Bool
  | .read l x, .read l' x' => l = l' && x = x'
  | .print l e, .print l' e' => l = l' && e = e'
  | .assign l x e, .assign l' x' e' => l = l' && x = x' && e = e'
  | .branch l e yes no, .branch l' e' yes' no' =>
    l = l' && e = e' && Stmt.sameAll yes yes' && Stmt.sameAll no no'
  | .loop l e body, .loop l' e' body' => l = l' && e = e' && Stmt.sameAll body body'
  | _, _ => false

/-- Two lists of statements are the same. -/
def Stmt.sameAll : List Stmt → List Stmt → Bool
  | [], [] => true
  | s :: rest, s' :: rest' => Stmt.same s s' && Stmt.sameAll rest rest'
  | _, _ => false

end

mutual

theorem Stmt.same_iff : ∀ s t : Stmt, Stmt.same s t = true ↔ s = t
  | .read .., t => by cases t <;> simp [Stmt.same]
  | .print .., t => by cases t <;> simp [Stmt.same]
  | .assign .., t => by cases t <;> simp [Stmt.same, and_assoc]
  | .branch _ _ yes no, t => by
      cases t <;> simp [Stmt.same, and_assoc, Stmt.sameAll_iff yes, Stmt.sameAll_iff no]
  | .loop _ _ body, t => by cases t <;> simp [Stmt.same, and_assoc, Stmt.sameAll_iff body]

theorem Stmt.sameAll_iff : ∀ s t : List Stmt, Stmt.sameAll s t = true ↔ s = t
  | [], t => by cases t <;> simp [Stmt.sameAll]
  | s :: rest, t => by
      cases t <;> simp [Stmt.sameAll, Stmt.same_iff s, Stmt.sameAll_iff rest]

end

instance : DecidableEq Stmt := fun s t => decidable_of_iff _ (Stmt.same_iff s t)

/-- The declaration of a variable. -/
structure Declaration where
  location : Location
  name : String
  type : Ty
  deriving DecidableEq, Repr, Inhabited

/-- A whole program. -/
structure Program where
  declarations : List Declaration
  statements : List Stmt
  deriving DecidableEq, Inhabited

namespace Expr

def mark : Expr → Mark
  | name m _ | int m _ | float m _ | string m _ | negate m _ | binary m _ _ _ => m

def id (e : Expr) : Nat := e.mark.id

def location (e : Expr) : Location := e.mark.location

end Expr

namespace Stmt

def location : Stmt → Location
  | read l _ | print l _ | assign l _ _ | branch l _ _ _ | loop l _ _ => l

end Stmt

end ImpToC
