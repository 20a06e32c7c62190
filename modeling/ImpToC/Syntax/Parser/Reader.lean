import ImpToC.Host
import ImpToC.Syntax.Literal
import ImpToC.Token.Sentence

/-!
# Readers of tokens

What a parser knows of its tokens: how many of them it has passed, and the number of the next
expression. Its methods call one another, and each knows how many calls can be open inside it. The
methods here look at tokens, pass them and turn them down.
-/

namespace ImpToC.Parser

/-- Tokens, of which some have been passed, and the number of the next expression. -/
structure Reader where
  tokens : Array Token
  position : Nat
  nextId : Nat
  deriving DecidableEq, Repr

/-- A reader in front of a sentence. -/
def Reader.start (s : Sentence) : Reader := ⟨s.tokens.toArray, 0, 0⟩

/-- The next token, if there is one. -/
def Reader.next? (d : Reader) : Option Token := d.tokens[d.position]?

/-- What stops a method. -/
inductive Stop
  /-- There is no token at a place that is looked at. -/
  | missing
  /-- No call can be opened any more. -/
  | exhausted
  /-- The conversion to a number turns down the text it is given. -/
  | refused (text : List Char)
  /-- There is a mistake in the tokens. -/
  | fault (fault : Fault)
  deriving DecidableEq, Repr

/-- What is done with a reader. -/
abbrev Action := EStateM Stop Reader

/-- What is done with a reader where a number of calls can be open. -/
abbrev Method (α : Type) := Nat → Action α

variable {α : Type}

/-- Open a call. -/
def call (body : Method α) : Method α
  | 0 => throw .exhausted
  | room + 1 => body room

/-- How many calls are open inside one another while the report of a mistake is made. -/
def reportCalls : Nat := 4

/-- Report a mistake. -/
def raise (fault : Fault) : Method α := fun room =>
  if reportCalls ≤ room then throw (.fault fault) else throw .exhausted

/-- Look at the next token. -/
def peek : Method Token := call fun _ => do
  let d ← get
  match d.next? with
  | some t => return t
  | none => throw .missing

/-- Pass the next token, unless it is the end. -/
def advance : Method Token := call fun _ => do
  let d ← get
  match d.next? with
  | some t =>
    if t.lexeme ≠ .finish then set { d with position := d.position + 1 }
    return t
  | none => throw .missing

/-- Whether the next token is of one of some kinds. -/
def check (kinds : List Kind) : Method Bool := call fun room => do
  let t ← peek room
  return t.kind ∈ kinds

/-- Pass the next token if it is of one of some kinds. -/
def accept (kinds : List Kind) : Method (Option Token) := call fun room => do
  if ← check kinds room then
    let t ← advance room
    return some t
  else return none

/-- Turn the next token down, since others are expected. -/
def unexpected (expected : List Kind) : Method α := call fun room => do
  let t ← peek room
  raise ((Cause.unexpectedToken t expected).fault t.location) room

/-- Pass the next token if it is of the kind that is expected. -/
def expect (kind : Kind) : Method Token := call fun room => do
  if ← check [kind] room then advance room else unexpected [kind] room

/-- Give out the number of an expression. -/
def newId : Method Nat := call fun _ =>
  modifyGet fun d => (d.nextId, { d with nextId := d.nextId + 1 })

/-- Make a node of a tree. -/
def node (value : α) : Method α := call fun _ => return value

/-- Read a literal. -/
def literal (read : Literal.Read α) : Method α := call fun room =>
  match read [] with
  | .ok value _ => return value
  | .error (.refused text) _ => throw (.refused text)
  | .error (.fault fault) _ => raise fault room

/-- How many tokens have not been passed. -/
def ahead : Action Nat := do
  let d ← get
  return d.tokens.size - d.position

end ImpToC.Parser
