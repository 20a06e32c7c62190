import ImpToC.C.Code
import ImpToC.Proofs.Semantics.Meaning

/-!
# Running C code

The meaning of the statements of C. A temporary can be used from its definition to the
end of its block. The operands of an operation bring each other to a common type, and
an initializer or an assignment converts a value to the type that is wanted.
-/

namespace ImpToC.C

variable {V T : Type}

/-- The temporaries of a place in the code, the latest first. -/
abbrev Temporaries (V : Type) := List (Nat × Datum V)

/-- The value that a place holds. -/
def Place.eval (symbols : List (String × Ty)) (temporaries : Temporaries V)
    (store : String → V) : Place → Except (Halt T) (Datum V)
  | .variable name => load symbols store name
  | .temporary index =>
    match temporaries.lookup index with
    | some d => .ok d
    | none => .error .stuck

/-- The common type of the operands of an arithmetic operation. -/
def commonType? : Ty → Ty → Option Ty
  | .int, .int => some .int
  | .int, .float | .float, .int | .float, .float => some .float
  | _, _ => none

/-- The value of an initializer. -/
def Value.eval (I : Interpretation V T) (symbols : List (String × Ty))
    (temporaries : Temporaries V) (store : String → V) : Value → Except (Halt T) (Datum V)
  | .int value => .ok ⟨.int, I.int value⟩
  | .float value => .ok ⟨.float, I.float value⟩
  | .string text => .ok ⟨.string, I.string text⟩
  | .negate operand => do
    let d ← operand.eval symbols temporaries store
    if d.type = .string then .error .stuck else I.minus d
  | .operation op left right => do
    let l ← left.eval symbols temporaries store
    let r ← right.eval symbols temporaries store
    match commonType? l.type r.type with
    | some type => I.combine op type l r
    | none => .error .stuck
  | .concat left right => do
    let l ← left.eval symbols temporaries store
    let r ← right.eval symbols temporaries store
    if l.type = .string ∧ r.type = .string then I.combine .add .string l r else .error .stuck

mutual

/-- Run a statement: the temporaries behind it, or none if it leaves the loop that it is
in. -/
def Instr.run (I : Interpretation V T) (symbols : List (String × Ty)) (bound : Nat)
    (temporaries : Temporaries V) : Instr → Run V T (Option (Temporaries V))
  | .define type index value => do
    let converted ← Run.ofStore fun store => do
      let d ← value.eval I symbols temporaries store
      I.convert type d
    return some ((index, ⟨type, converted⟩) :: temporaries)
  | .assign target value => do
    let d ← Run.ofStore fun store => value.eval symbols temporaries store
    I.assign symbols target d
    return some temporaries
  | .print type value => do
    let d ← Run.ofStore fun store => value.eval symbols temporaries store
    if d.type = type then
      emit d
      return some temporaries
    else throw .stuck
  | .scan type name =>
    if symbols.lookup name = some type ∧ type ≠ .string then do
      I.read name type
      return some temporaries
    else throw .stuck
  | .scanString name =>
    if symbols.lookup name = some .string then do
      I.read name .string
      return some temporaries
    else throw .stuck
  | .branch condition yes no => do
    let d ← Run.ofStore fun store => condition.eval symbols temporaries store
    let inner ←
      if I.holds d.type d.value then Instr.runAll I symbols bound temporaries yes
      else Instr.runAll I symbols bound temporaries no
    return inner.map fun _ => temporaries
  | .loop body => do
    let round : Run V T Bool := do
      let inner ← Instr.runAll I symbols bound temporaries body
      return inner.isSome
    round.iterate bound
    return some temporaries
  | .leaveUnless condition => do
    let d ← Run.ofStore fun store => condition.eval symbols temporaries store
    return if I.holds d.type d.value then some temporaries else none

/-- Run statements in turn, as far as none of them leaves the loop. -/
def Instr.runAll (I : Interpretation V T) (symbols : List (String × Ty)) (bound : Nat)
    (temporaries : Temporaries V) : List Instr → Run V T (Option (Temporaries V))
  | [] => return some temporaries
  | i :: rest => do
    match ← Instr.run I symbols bound temporaries i with
    | some temporaries => Instr.runAll I symbols bound temporaries rest
    | none => return none

end

/-- Run the main function of a file with a bound on the rounds of each loop. Its variables
start with the zeros of their types, in order. -/
def File.run (I : Interpretation V T) (bound : Nat) (f : File) :
    EStateM.Result (Halt T) (World V) Unit :=
  let main : Run V T Unit := do
    match ← Instr.runAll I f.symbols bound [] f.body with
    | some _ => return ()
    | none => throw .stuck
  main (I.start f.symbols)

end ImpToC.C
