import ImpToC.Proofs.Parsing.States

/-!
# Passes over a sentence

A sentence becomes a program in one pass, with one step a token. What has been read is in the state
of the pass, and there is no limit on nesting. A parser whose calls suffice comes to the same
program or the same mistake.
-/

namespace ImpToC.Parser

/-- How much of the expression to the left of an operator or a closer is complete
there: products before any operator, sums before a sum, and negations only
before a closer. -/
inductive Reach
  | product
  | sum
  | closer
  deriving DecidableEq

/-- A frame is complete in front of a token with the given reach. -/
def Frame.completeAt : Frame → Reach → Bool
  | .group, _ => false
  | .negate _, reach => reach = .closer
  | .sum .., reach => reach ≠ .product
  | .product .., _ => true

/-- The expression that a frame makes of its operand. The operation is where its
left operand is; a pair of parentheses makes none. -/
def Frame.apply (id : Nat) : Frame → Expr → Expr
  | .group, value => value
  | .negate location, value => .negate ⟨id, location⟩ value
  | .sum op left, value | .product op left, value =>
    .binary ⟨id, left.location⟩ op left value

/-- Complete the frames around an operand, from the inside, as far as the reach
of the next token goes: the next number, the frames that stay, and the value. -/
def complete (reach : Reach) (nextId : Nat) : List Frame → Expr → Nat × List Frame × Expr
  | [], value => (nextId, [], value)
  | frame :: frames, value =>
    if frame.completeAt reach then complete reach (nextId + 1) frames (frame.apply nextId value)
    else (nextId, frame :: frames, value)

namespace State

/-- Add a statement to the block at hand. -/
def push (s : State) (nextId : Nat) (statement : Stmt) : State :=
  { s with phase := .fresh, before := statement :: s.before, nextId := nextId }

/-- Close a block: go on behind the statement that it belongs to. -/
def leave (s : State) (blocks : List Block) (before : List Stmt) (statement : Stmt) : State :=
  { s with phase := .fresh, blocks := blocks, before := statement :: before }

/-- Open a block: begin a list of statements inside it. -/
def enter (s : State) (nextId : Nat) (block : Block) : State :=
  { s with phase := .fresh, blocks := block :: s.blocks, before := [], nextId := nextId }

/-- A token at the start of a declaration or a statement, or at the end of a
block. -/
def stepFresh (s : State) (t : Token) : Except Fault State :=
  match t.lexeme, s.blocks with
  | .name name, _ => .ok { s with phase := .target t.location name }
  | .symbol .readWord, _ => .ok { s with phase := .reading t.location }
  | .symbol .printWord, _ => .ok { s with phase := .operand (.print t.location) [] }
  | .symbol .ifWord, _ => .ok { s with phase := .operand (.branch t.location) [] }
  | .symbol .whileWord, _ => .ok { s with phase := .operand (.loop t.location) [] }
  | .symbol .varWord, [] =>
    if s.before.isEmpty then .ok { s with phase := .declared t.location }
    else .error (s.unexpected t)
  | .symbol .elseWord, .yes location condition before :: blocks =>
    .ok
      { s with blocks := .no location condition s.before.reverse before :: blocks, before := [] }
  | .symbol .endWord, .yes location condition before :: blocks =>
    .ok (s.leave blocks before (.branch location condition s.before.reverse []))
  | .symbol .endWord, .no location condition yes before :: blocks =>
    .ok (s.leave blocks before (.branch location condition yes s.before.reverse))
  | .symbol .doneWord, .body location condition before :: blocks =>
    .ok (s.leave blocks before (.loop location condition s.before.reverse))
  | _, _ => .error (s.unexpected t)

/-- An operand that is one token. -/
def operandDone (s : State) (purpose : Purpose) (frames : List Frame) (value : Expr) : State :=
  { s with phase := .operator purpose frames value, nextId := s.nextId + 1 }

/-- A token at a place for an operand. -/
def stepOperand (s : State) (purpose : Purpose) (frames : List Frame) (t : Token) :
    Except Fault State :=
  let mark : Mark := ⟨s.nextId, t.location⟩
  match t.lexeme with
  | .int digits =>
    match Literal.int? digits with
    | some value => .ok (s.operandDone purpose frames (.int mark value))
    | none => .error ((Cause.invalidInt digits.text).fault t.location)
  | .float decimal =>
    match Literal.float? decimal with
    | some value => .ok (s.operandDone purpose frames (.float mark value))
    | none => .error ((Cause.invalidFloat decimal.text).fault t.location)
  | .string text => .ok (s.operandDone purpose frames (.string mark text))
  | .name text => .ok (s.operandDone purpose frames (.name mark text))
  | .symbol .openParen =>
    .ok { s with phase := .operand purpose (.group :: frames) }
  | .symbol .minus =>
    .ok { s with phase := .operand purpose (.negate t.location :: frames) }
  | _ => .error (s.unexpected t)

/-- The state behind an expression with its value. -/
def close (s : State) (purpose : Purpose) (nextId : Nat) (value : Expr) : State :=
  match purpose with
  | .print location => s.push nextId (.print location value)
  | .assign location target => s.push nextId (.assign location target value)
  | .branch location => s.enter nextId (.yes location value s.before)
  | .loop location => s.enter nextId (.body location value s.before)

/-- A token behind an operand. -/
def stepOperator (s : State) (purpose : Purpose) (frames : List Frame) (value : Expr) (t : Token) :
    Except Fault State :=
  match t.lexeme with
  | .symbol symbol =>
    match product? symbol, sum? symbol with
    | some op, _ =>
      let (nextId, frames, value) := complete .product s.nextId frames value
      .ok { s with phase := .operand purpose (.product op value :: frames), nextId := nextId }
    | none, some op =>
      let (nextId, frames, value) := complete .sum s.nextId frames value
      .ok { s with phase := .operand purpose (.sum op value :: frames), nextId := nextId }
    | none, none =>
      match complete .closer s.nextId frames value with
      | (nextId, [], value) =>
        if symbol = purpose.closer then .ok (s.close purpose nextId value)
        else .error (s.unexpected t)
      | (nextId, _ :: frames, value) =>
        if symbol = .closeParen then
          .ok { s with phase := .operator purpose frames value, nextId := nextId }
        else .error (s.unexpected t)
  | _ => .error (s.unexpected t)

/-- Read one token. -/
def step (s : State) (t : Token) : Except Fault State :=
  match s.phase with
  | .fresh => s.stepFresh t
  | .declared location =>
    match t.lexeme with
    | .name name => .ok { s with phase := .named location name }
    | _ => .error (s.unexpected t)
  | .named location name =>
    if t.lexeme = .symbol .colon then .ok { s with phase := .typing location name }
    else .error (s.unexpected t)
  | .typing location name =>
    match t.lexeme with
    | .symbol symbol =>
      match type? symbol with
      | some type => .ok { s with phase := .typed ⟨location, name, type⟩ }
      | none => .error (s.unexpected t)
    | _ => .error (s.unexpected t)
  | .typed declaration =>
    if t.lexeme = .symbol .semicolon then
      .ok { s with phase := .fresh, declarations := declaration :: s.declarations }
    else .error (s.unexpected t)
  | .reading location =>
    match t.lexeme with
    | .name name => .ok { s with phase := .filling location name }
    | _ => .error (s.unexpected t)
  | .filling location name =>
    if t.lexeme = .symbol .semicolon then .ok (s.push s.nextId (.read location name))
    else .error (s.unexpected t)
  | .target location name =>
    if t.lexeme = .symbol .equals then
      .ok { s with phase := .operand (.assign location name) [] }
    else .error (s.unexpected t)
  | .operand purpose frames => s.stepOperand purpose frames t
  | .operator purpose frames value => s.stepOperator purpose frames value t

/-- Reach the end of the sentence: all must be complete there. -/
def finish (s : State) (location : Location) : Except Fault Program :=
  match s.phase, s.blocks with
  | .fresh, [] => .ok ⟨s.declarations.reverse, s.before.reverse⟩
  | _, _ => .error (s.unexpected ⟨.finish, location⟩)

end State

/-- The pass over a sentence. -/
def pass (s : Sentence) : Except Fault Program := do
  let state ← s.words.foldlM State.step State.start
  state.finish s.finish

end ImpToC.Parser
