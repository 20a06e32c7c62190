import ImpToC.Proofs.Semantics.Meaning
import ImpToC.Syntax

/-!
# Running programs

The meaning of a program by its tree. Operands are evaluated from left to right, and
the condition of a loop before each round.
-/

namespace ImpToC

variable {V T : Type}

/-- The value of an expression. -/
def Expr.eval (I : Interpretation V T) (symbols : List (String × Ty)) (store : String → V) :
    Expr → Except (Halt T) (Datum V)
  | .name _ x => load symbols store x
  | .int _ value => .ok ⟨.int, I.int value⟩
  | .float _ value => .ok ⟨.float, I.float value⟩
  | .string _ text => .ok ⟨.string, I.string text⟩
  | .negate _ operand => do
    let d ← operand.eval I symbols store
    I.minus d
  | .binary _ op left right => do
    let l ← left.eval I symbols store
    let r ← right.eval I symbols store
    match op.result? l.type r.type with
    | some type => I.combine op type l r
    | none => .error .stuck

/-- A condition counts as true. -/
def Expr.holds (I : Interpretation V T) (symbols : List (String × Ty)) (condition : Expr) :
    Run V T Bool := do
  let d ← Run.ofStore fun store => condition.eval I symbols store
  return I.holds d.type d.value

mutual

/-- Run a statement. -/
def Stmt.run (I : Interpretation V T) (symbols : List (String × Ty)) (bound : Nat) :
    Stmt → Run V T Unit
  | .read _ name => do
    let target ← Run.ofStore fun store => load symbols store name
    I.read name target.type
  | .print _ value => do
    let d ← Run.ofStore fun store => value.eval I symbols store
    emit d
  | .assign _ target value => do
    let d ← Run.ofStore fun store => value.eval I symbols store
    I.assign symbols target d
  | .branch _ condition yes no => do
    if ← condition.holds I symbols then Stmt.runAll I symbols bound yes
    else Stmt.runAll I symbols bound no
  | .loop _ condition body =>
    let round : Run V T Bool := do
      if ← condition.holds I symbols then
        Stmt.runAll I symbols bound body
        return true
      else return false
    round.iterate bound

/-- Run statements in turn. -/
def Stmt.runAll (I : Interpretation V T) (symbols : List (String × Ty)) (bound : Nat) :
    List Stmt → Run V T Unit
  | [] => return ()
  | s :: rest => do
    Stmt.run I symbols bound s
    Stmt.runAll I symbols bound rest

end

/-- The variables of a program with their types. -/
def Program.symbols (p : Program) : List (String × Ty) :=
  p.declarations.map fun d => (d.name, d.type)

/-- Run a program with a bound on the rounds of each loop. -/
def Program.run (I : Interpretation V T) (bound : Nat) (p : Program) :
    EStateM.Result (Halt T) (World V) Unit :=
  Stmt.runAll I p.symbols bound p.statements (I.start p.symbols)

end ImpToC
