import ImpToC.Number.Binary64
import ImpToC.Types

/-!
# Meanings

What it takes to run programs of the language and of C alike. The values, what
literals and operators mean and what is read are left open. A run changes the
variables and leaves a trace of what is read and printed.

Loops may not end. So each loop gets a bound on its rounds, and a run that needs
more rounds ends there: a run without a bound is the limit of those.
-/

namespace ImpToC

/-- A meaning: values `V` for literals, operators, conversions and input. Each of them
but the literals may also end the run with a trap. -/
structure Interpretation (V T : Type) where
  int : Nat → V
  float : Number.Magnitude → V
  string : String → V
  /-- The first value of a variable. -/
  zero : Ty → V
  negate : Ty → V → Except T V
  /-- An operation by the types of its left operand, its right operand and its result. -/
  operate : BinOp → Ty → Ty → Ty → V → V → Except T V
  /-- The float that a whole number becomes. -/
  widen : V → Except T V
  /-- A value of a type counts as true. -/
  holds : Ty → V → Bool
  /-- What is read for a variable of a type after some number of reads. -/
  input : Nat → Ty → Except T V

/-- Why a run ends before its last statement. -/
inductive Halt (T : Type)
  | trap (cause : T)
  | outOfRounds
  | stuck

/-- What can be seen of a run. -/
inductive Event (V : Type)
  | read (name : String) (type : Ty) (value : V)
  | print (type : Ty) (value : V)

/-- The values of the variables, the number of reads, and all that has been seen. -/
structure World (V : Type) where
  store : String → V
  reads : Nat
  events : List (Event V)

/-- A value with its type. -/
structure Datum (V : Type) where
  type : Ty
  value : V

/-- A part of a run. -/
abbrev Run (V T : Type) := EStateM (Halt T) (World V)

variable {V T α : Type}

namespace Run

/-- A value that the variables determine. -/
def ofStore (f : (String → V) → Except (Halt T) α) : Run V T α := fun w =>
  match f w.store with
  | .ok a => .ok a w
  | .error halt => .error halt w

/-- Rounds as long as they ask for another one. -/
def iterate (round : Run V T Bool) : Nat → Run V T Unit
  | 0 => throw .outOfRounds
  | bound + 1 => do
    if ← round then iterate round bound

end Run

/-- The value of a variable. -/
def load (symbols : List (String × Ty)) (store : String → V) (name : String) :
    Except (Halt T) (Datum V) :=
  match symbols.lookup name with
  | some type => .ok ⟨type, store name⟩
  | none => .error .stuck

/-- Print a value. -/
def emit (d : Datum V) : Run V T Unit :=
  modify fun w => { w with events := w.events ++ [.print d.type d.value] }

namespace Interpretation

variable (I : Interpretation V T)

/-- A value where one of a type is wanted. -/
def convert (type : Ty) (d : Datum V) : Except (Halt T) V :=
  if d.type = type then .ok d.value
  else if type = .float ∧ d.type = .int then
    match I.widen d.value with
    | .ok value => .ok value
    | .error cause => .error (.trap cause)
  else .error .stuck

/-- The negation of a value. -/
def minus (d : Datum V) : Except (Halt T) (Datum V) :=
  match I.negate d.type d.value with
  | .ok value => .ok ⟨d.type, value⟩
  | .error cause => .error (.trap cause)

/-- The result of an operation, which has a given type. -/
def combine (op : BinOp) (type : Ty) (left right : Datum V) : Except (Halt T) (Datum V) :=
  match I.operate op left.type right.type type left.value right.value with
  | .ok value => .ok ⟨type, value⟩
  | .error cause => .error (.trap cause)

/-- Give a variable a value. -/
def assign (symbols : List (String × Ty)) (name : String) (d : Datum V) : Run V T Unit := do
  let value ← Run.ofStore fun store => do
    let target ← load symbols store name
    I.convert target.type d
  modify fun w => { w with store := fun x => if x = name then value else w.store x }

/-- Read a variable of a type. -/
def read (name : String) (type : Ty) : Run V T Unit := fun w =>
  match I.input w.reads type with
  | .ok value =>
    .ok ()
      { store := fun x => if x = name then value else w.store x
        reads := w.reads + 1
        events := w.events ++ [.read name type value] }
  | .error cause => .error (.trap cause) w

/-- The world in front of a run: every variable has the zero of its type. -/
def start (symbols : List (String × Ty)) : World V where
  store := fun x => I.zero ((symbols.lookup x).getD .int)
  reads := 0
  events := []

end Interpretation

end ImpToC
