import ImpToC.C.Lowering
import ImpToC.C.Text
import ImpToC.Syntax.Parser
import ImpToC.Token.Lexer
import ImpToC.Typing

/-!
# Compilations

The way of a source text through the compiler. A compilation advances from one
stage to the next and keeps what it has made; a fault stops it where it is. How
far it goes is chosen by the last stage.
-/

namespace ImpToC

/-- The stages of a compilation. -/
inductive Stage
  | scan
  | parse
  | typecheck
  | codegen
  deriving DecidableEq, Repr, Inhabited

namespace Stage

/-- The stages in their order. -/
def all : List Stage := [.scan, .parse, .typecheck, .codegen]

def name : Stage → String
  | .scan => "scan"
  | .parse => "parse"
  | .typecheck => "typecheck"
  | .codegen => "codegen"

/-- The stage with a name. -/
def ofName? (name : String) : Option Stage := all.find? fun s => s.name = name

/-- How many stages there are up to this one. -/
def count : Stage → Nat
  | .scan => 1
  | .parse => 2
  | .typecheck => 3
  | .codegen => 4

/-- What is said of a name that no stage has. -/
def unknownMessage (name : String) : String :=
  "invalid stage '" ++ name ++ "', expected one of: " ++ ", ".intercalate (all.map Stage.name)

end Stage

/-- A text to compile: its name, whether its language has strings, and its
characters. -/
structure Source where
  file : String
  strings : Bool
  text : List Char
  deriving DecidableEq, Repr, Inhabited

/-- The name of a text that was given none. -/
def defaultFile : String := "<input>"

namespace Source

/-- Stage one: the sentence of a source. -/
def scan (s : Source) : Except Diagnostic Sentence := Sentence.ofSource s.file s.strings s.text

/-- The lines of a source that diagnostics quote. -/
def lines (s : Source) : List (List Char) := Text.lines s.text

end Source

variable [Host]

/-- Stage two: the program of a sentence; its faults quote the given lines. -/
def Sentence.parse (lines : List (List Char)) (s : Sentence) : Except Diagnostic Program :=
  match Program.ofSentence s with
  | .ok p => .ok p
  | .error f => .error (f.quoting lines)

/-- Stage three: the types of a program; its faults quote the given lines. -/
def Program.typing (lines : List (List Char)) (p : Program) : Except Diagnostic Typing :=
  match Typing.empty.extend p with
  | (none, t) => .ok t
  | (some f, _) => .error (f.quoting lines)

/-- Stage four: the code of a program with tables of types. -/
def Program.code (p : Program) (symbols : Table String Ty) (types : Table Nat Ty) :
    Except Diagnostic C.File :=
  match ((C.Generator.ofTables symbols types).generate p).1 with
  | .ok f => .ok f
  | .error f => .error f.unquoted

/-- How far a compilation has come, with what it has made. -/
inductive Compilation
  | started
  | scanned (sentence : Sentence)
  | parsed (sentence : Sentence) (program : Program)
  | typed (sentence : Sentence) (program : Program) (typing : Typing)
  | generated (sentence : Sentence) (program : Program) (typing : Typing) (file : C.File)
  deriving Inhabited

namespace Compilation

def sentence? : Compilation → Option Sentence
  | started => none
  | scanned s | parsed s _ | typed s _ _ | generated s _ _ _ => some s

def program? : Compilation → Option Program
  | started | scanned _ => none
  | parsed _ p | typed _ p _ | generated _ p _ _ => some p

def typing? : Compilation → Option Typing
  | started | scanned _ | parsed .. => none
  | typed _ _ t | generated _ _ t _ => some t

def file? : Compilation → Option C.File
  | started | scanned _ | parsed .. | typed .. => none
  | generated _ _ _ f => some f

/-- Go through the next stage. After the last one there is nothing left to do. -/
def advance (source : Source) : Compilation → Except Diagnostic Compilation
  | started => do
    let s ← source.scan
    return scanned s
  | scanned s => do
    let p ← s.parse source.lines
    return parsed s p
  | parsed s p => do
    let t ← p.typing source.lines
    return typed s p t
  | typed s p t => do
    let f ← p.code t.symbols t.types
    return generated s p t f
  | generated s p t f => return generated s p t f

/-- Go through a number of stages, or up to the first fault. -/
def run (source : Source) : Nat → Compilation → Compilation × Option Diagnostic
  | 0, c => (c, none)
  | stages + 1, c =>
    match c.advance source with
    | .ok next => run source stages next
    | .error d => (c, some d)

/-- Compile a source up to a stage. -/
def upTo (source : Source) (last : Stage) : Compilation × Option Diagnostic :=
  run source last.count started

/-- What each stage reports when it is done. -/
def log (file : String) (c : Compilation) : List String :=
  let scanned := c.sentence?.map fun s =>
    file ++ ": scanned " ++ toString s.tokens.length ++ " tokens"
  let parsed := c.program?.map fun p =>
    file ++ ": parsed " ++ toString p.declarations.length ++ " declarations, " ++
      toString p.statements.length ++ " statements"
  let typed := c.typing?.map fun t =>
    "Type check passed: " ++ toString t.scope.size ++ " variables, " ++
      toString t.types.size ++ " expressions"
  let generated := c.file?.map fun f =>
    "Generated C: " ++ toString f.lines.length ++ " lines, " ++
      toString f.temporaries ++ " temporaries"
  [scanned, parsed, typed, generated].filterMap id

end Compilation

/-- Compile a source up to a stage: what was made, or the first fault. -/
def Source.compile (source : Source) (last : Stage) : Except Diagnostic Compilation :=
  match Compilation.upTo source last with
  | (c, none) => .ok c
  | (_, some d) => .error d

/-- The choices that hold for all sources of a compiler: whether the language has
strings, the last stage, and the name of a source that is given none. -/
structure Options where
  strings : Bool
  last : Stage
  file : String
  deriving DecidableEq, Repr, Inhabited

namespace Options

/-- The choices that are made unless others are. -/
def standard : Options := ⟨true, .codegen, defaultFile⟩

/-- The source with a text. An empty name is no name. -/
def source (o : Options) (file : Option String) (text : List Char) : Source where
  file :=
    match file with
    | some name => if name = "" then o.file else name
    | none => o.file
  strings := o.strings
  text := text

end Options

end ImpToC
