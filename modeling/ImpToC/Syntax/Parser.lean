import ImpToC.Syntax
import ImpToC.Syntax.Parser.Reader

/-!
# Parsing

A sentence becomes a program by descent, one method for each construct. Products bind tighter than
sums, both group to the left, and a minus sign in front of an operand takes all that follows up to
the end of the enclosing expression.

Expressions are numbered when they are complete, so operands come before the operation that they
belong to. A loop goes on for no more rounds than there are tokens ahead. Where the host allows no
further call, a sentence is nested too deeply.
-/

namespace ImpToC.Parser

/-- The kinds of token that start a statement. -/
def statementStart : List Kind :=
  [.symbol .readWord, .symbol .printWord, .name, .symbol .ifWord, .symbol .whileWord]

/-- The kinds of token that start an operand. -/
def operandStart : List Kind :=
  [.int, .float, .string, .name, .symbol .openParen, .symbol .minus]

/-- The kinds of token that name a type. -/
def typeStart : List Kind := [.symbol .intWord, .symbol .floatWord, .symbol .stringWord]

/-- The type that a keyword names. -/
def type? : Symbol → Option Ty
  | .intWord => some .int
  | .floatWord => some .float
  | .stringWord => some .string
  | _ => none

/-- The operator that binds as a sum. -/
def sum? : Symbol → Option BinOp
  | .plus => some .add
  | .minus => some .sub
  | _ => none

/-- The operator that binds as a product. -/
def product? : Symbol → Option BinOp
  | .star => some .mul
  | .slash => some .div
  | _ => none

/-- What a symbol stands for in a table. -/
def lookUp {α : Type} (table : Symbol → Option α) : Lexeme → Option α
  | .symbol s => table s
  | _ => none

variable [Host]

/-! ## Expressions -/

/-- Go on behind the left operand for as long as operators of a table follow. -/
def operations (table : Symbol → Option BinOp) (operand : Action Expr) (room : Nat) :
    Nat → Expr → Action Expr
  | 0, _ => throw .missing
  | rounds + 1, left => do
    let t ← peek room
    match lookUp table t.lexeme with
    | none => return left
    | some op =>
      let _ ← advance room
      let right ← operand
      let id ← newId room
      let operation ← node (.binary ⟨id, left.location⟩ op left right) room
      operations table operand room rounds operation

/-- Operands with the operators of a table between them, grouped to the left. -/
def binary (table : Symbol → Option BinOp) (operand : Action Expr) (room : Nat) : Action Expr := do
  let left ← operand
  operations table operand room (← ahead) left

mutual

/-- A sum. -/
def expression : Nat → Action Expr
  | room + 2 => binary sum? (term room) room
  | _ => throw .exhausted

/-- A product. -/
def term : Nat → Action Expr
  | room + 2 => binary product? (factor room) room
  | _ => throw .exhausted

/-- An operand. -/
def factor : Nat → Action Expr
  | 0 => throw .exhausted
  | room + 1 => do
    let t ← peek room
    match t.lexeme with
    | .int digits =>
      let _ ← advance room
      let id ← newId room
      let value ← literal (Literal.readInt Host.digits digits.text t.location) room
      node (.int ⟨id, t.location⟩ value) room
    | .float decimal =>
      let _ ← advance room
      let id ← newId room
      let value ← literal (Literal.readFloat decimal.text t.location) room
      node (.float ⟨id, t.location⟩ value) room
    | .string text =>
      let _ ← advance room
      let id ← newId room
      node (.string ⟨id, t.location⟩ text) room
    | .name text =>
      let _ ← advance room
      let id ← newId room
      node (.name ⟨id, t.location⟩ text) room
    | .symbol .openParen =>
      let _ ← advance room
      let value ← expression room
      let _ ← expect (.symbol .closeParen) room
      return value
    | .symbol .minus =>
      let _ ← advance room
      let operand ← expression room
      let id ← newId room
      node (.negate ⟨id, t.location⟩ operand) room
    | _ => unexpected operandStart room

end

/-! ## Statements -/

/-- A statement that reads a variable. -/
def readStatement : Method Stmt := call fun room => do
  let first ← expect (.symbol .readWord) room
  let target ← expect .name room
  let _ ← expect (.symbol .semicolon) room
  node (.read first.location target.text) room

/-- A statement that prints an expression. -/
def printStatement : Method Stmt := call fun room => do
  let first ← expect (.symbol .printWord) room
  let value ← expression room
  let _ ← expect (.symbol .semicolon) room
  node (.print first.location value) room

/-- A statement that assigns an expression to a variable. -/
def assignStatement : Method Stmt := call fun room => do
  let target ← expect .name room
  let _ ← expect (.symbol .equals) room
  let value ← expression room
  let _ ← expect (.symbol .semicolon) room
  node (.assign target.location target.text value) room

/-- Go on for as long as tokens follow that start a statement. -/
def sequence (statement : Action Stmt) (room : Nat) : Nat → Action (List Stmt)
  | 0 => throw .missing
  | rounds + 1 => do
    let t ← peek room
    if t.kind ∈ statementStart then
      let first ← statement
      let rest ← sequence statement room rounds
      return first :: rest
    else return []

mutual

/-- A statement of any sort. -/
def statement : Nat → Action Stmt
  | 0 => throw .exhausted
  | room + 1 => do
    let t ← peek room
    match t.lexeme with
    | .symbol .readWord => readStatement room
    | .symbol .printWord => printStatement room
    | .name _ => assignStatement room
    | .symbol .ifWord => branchStatement room
    | .symbol .whileWord => loopStatement room
    | _ => unexpected statementStart room

/-- A choice between two lists of statements, of which the second may be missing. -/
def branchStatement : Nat → Action Stmt
  | 0 => throw .exhausted
  | room + 1 => do
    let first ← expect (.symbol .ifWord) room
    let condition ← expression room
    let _ ← expect (.symbol .thenWord) room
    let yes ← block [.symbol .elseWord, .symbol .endWord] room
    let otherwise ← accept [.symbol .elseWord] room
    let no ← if otherwise.isSome then block [.symbol .endWord] room else pure []
    let _ ← expect (.symbol .endWord) room
    node (.branch first.location condition yes no) room

/-- A list of statements that is repeated. -/
def loopStatement : Nat → Action Stmt
  | 0 => throw .exhausted
  | room + 1 => do
    let first ← expect (.symbol .whileWord) room
    let condition ← expression room
    let _ ← expect (.symbol .doWord) room
    let body ← block [.symbol .doneWord] room
    let _ ← expect (.symbol .doneWord) room
    node (.loop first.location condition body) room

/-- Statements in front of one of some words. -/
def block (terminators : List Kind) : Nat → Action (List Stmt)
  | 0 => throw .exhausted
  | room + 1 => do
    let body ← statements room
    if ← check terminators room then return body
    else unexpected (terminators ++ statementStart) room

/-- Statements up to a token that starts none. -/
def statements : Nat → Action (List Stmt)
  | 0 => throw .exhausted
  | room + 1 => do sequence (statement room) room (← ahead)

end

/-! ## Programs -/

/-- The declaration of a variable. -/
def declaration : Method Declaration := call fun room => do
  let first ← expect (.symbol .varWord) room
  let target ← expect .name room
  let _ ← expect (.symbol .colon) room
  match ← accept typeStart room with
  | none => unexpected typeStart room
  | some named =>
    let _ ← expect (.symbol .semicolon) room
    match lookUp type? named.lexeme with
    | some type => node ⟨first.location, target.text, type⟩ room
    | none => throw .missing

/-- Go on for as long as declarations follow. -/
def declarations (room : Nat) : Nat → Action (List Declaration)
  | 0 => throw .missing
  | rounds + 1 => do
    if ← check [.symbol .varWord] room then
      let first ← declaration room
      let rest ← declarations room rounds
      return first :: rest
    else return []

/-- The whole of a sentence. -/
def program : Method Program := call fun room => do
  let declarations ← declarations room (← ahead)
  let statements ← statements room
  if ← check [.finish] room then node ⟨declarations, statements⟩ room
  else
    unexpected
      (.finish :: statementStart ++ if statements.isEmpty then [.symbol .varWord] else []) room

/-- As many calls as a parser opens inside one another in a sentence where a number of parentheses,
negations and blocks are open at once. -/
def callsFor (nesting : Nat) : Nat := 5 * nesting + 11

/-- The calls that a parser has for a sentence, with those for a report. Without a limit there are
enough for a sentence in which every token opens something. -/
def roomFor (s : Sentence) : Nat := Host.calls.getD (callsFor s.words.length) + reportCalls

/-- Read a sentence. If a call is one too many, that is reported at the next token. -/
def read (s : Sentence) : EStateM.Result Stop Reader Program :=
  match program (roomFor s) (.start s) with
  | .error .exhausted d =>
    (do
      let t ← peek (roomFor s)
      raise (Cause.nestingTooDeep.fault t.location) (roomFor s)) d
  | outcome => outcome

/-- The program that a sentence is read as on a host, or the mistake that is found. Nothing else
stops a parser, as `read_stops` says. -/
def parse (host : Host) (s : Sentence) : Except Fault Program :=
  match @read host s with
  | .ok p _ => .ok p
  | .error (.fault fault) _ => .error fault
  | .error _ _ => .error (Cause.nestingTooDeep.fault s.finish)

end ImpToC.Parser

namespace ImpToC

variable [Host]

/-- The program that a sentence is. -/
def Program.ofSentence (s : Sentence) : Except Fault Program := Parser.parse inferInstance s

end ImpToC
