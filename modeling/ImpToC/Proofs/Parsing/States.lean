import ImpToC.Syntax.Parser

/-!
# States of a pass

What is known between two tokens of a sentence: how far the statement at hand has come, what stands
to the left of the operand at hand, and which blocks are open. From that follow the tokens that are
named when another one comes, and how deep the place is nested.
-/

namespace ImpToC.Parser

/-- What an expression is part of. -/
inductive Purpose
  | print (location : Location)
  | assign (location : Location) (target : String)
  | branch (location : Location)
  | loop (location : Location)
  deriving DecidableEq, Inhabited

/-- The symbol that ends an expression. -/
def Purpose.closer : Purpose → Symbol
  | .print _ | .assign .. => .semicolon
  | .branch _ => .thenWord
  | .loop _ => .doWord

/-- What stands to the left of an operand and waits for it. -/
inductive Frame
  | group
  | negate (location : Location)
  | sum (op : BinOp) (left : Expr)
  | product (op : BinOp) (left : Expr)
  deriving DecidableEq, Inhabited

/-- A frame that is left open by nesting. -/
def Frame.nests : Frame → Bool
  | .group | .negate _ => true
  | .sum .. | .product .. => false

/-- A block that is open, with the statements before it in the enclosing block,
the last one first. -/
inductive Block
  | yes (location : Location) (condition : Expr) (before : List Stmt)
  | no (location : Location) (condition : Expr) (yes before : List Stmt)
  | body (location : Location) (condition : Expr) (before : List Stmt)
  deriving Inhabited

/-- What has been read of the declaration or statement at hand. -/
inductive Phase
  /-- Nothing. -/
  | fresh
  /-- The keyword of a declaration. -/
  | declared (location : Location)
  /-- A declaration up to its name. -/
  | named (location : Location) (name : String)
  /-- A declaration up to its colon. -/
  | typing (location : Location) (name : String)
  /-- A declaration up to its type. -/
  | typed (declaration : Declaration)
  /-- The keyword of a read statement. -/
  | reading (location : Location)
  /-- A read statement up to its name. -/
  | filling (location : Location) (name : String)
  /-- The target of an assignment. -/
  | target (location : Location) (name : String)
  /-- An expression up to a place where an operand stands. -/
  | operand (purpose : Purpose) (frames : List Frame)
  /-- An expression up to the end of an operand. -/
  | operator (purpose : Purpose) (frames : List Frame) (value : Expr)
  deriving Inhabited

/-- The state of a pass: the statement at hand, the open blocks, the innermost
first, the statements before in the same block, the last one first, the
declarations, the last one first, and the number of the next expression. -/
structure State where
  phase : Phase
  blocks : List Block
  before : List Stmt
  declarations : List Declaration
  nextId : Nat
  deriving Inhabited

/-- The state in front of the first token. -/
def State.start : State := ⟨.fresh, [], [], [], 0⟩

namespace State

/-- The number of parentheses, negations and blocks that are open. -/
def depth (s : State) : Nat :=
  s.blocks.length +
    match s.phase with
    | .operand _ frames | .operator _ frames _ => frames.countP Frame.nests
    | _ => 0

/-- The kinds of token that are named when another one stands at this place. A
place behind an operand names what ends the expression there, not the operators. -/
def expected (s : State) : List Kind :=
  match s.phase with
  | .fresh =>
    match s.blocks with
    | [] =>
      .finish :: statementStart ++ if s.before.isEmpty then [.symbol .varWord] else []
    | .yes .. :: _ => [.symbol .elseWord, .symbol .endWord] ++ statementStart
    | .no .. :: _ => .symbol .endWord :: statementStart
    | .body .. :: _ => .symbol .doneWord :: statementStart
  | .declared _ | .reading _ => [.name]
  | .named .. => [.symbol .colon]
  | .typing .. => [.symbol .intWord, .symbol .floatWord, .symbol .stringWord]
  | .typed _ | .filling .. => [.symbol .semicolon]
  | .target .. => [.symbol .equals]
  | .operand .. => operandStart
  | .operator purpose frames _ =>
    if frames.contains .group then [.symbol .closeParen] else [.symbol purpose.closer]

/-- A token that may not stand at this place. -/
def unexpected (s : State) (t : Token) : Fault :=
  (Cause.unexpectedToken t s.expected).fault t.location

end State

end ImpToC.Parser
