import ImpToC.Compilation

/-!
# Arguments

What the program declares of its command line: its commands, the options in front of a command and
those that belong to one. Every command reads one file besides, and C can be written to another.
-/

namespace ImpToC.CommandLine

/-- The commands. -/
inductive Command
  | scan
  | tokens
  | parse
  | ast
  | typecheck
  | typedAst
  | c
  deriving DecidableEq, Repr, Inhabited

namespace Command

def all : List Command := [.scan, .tokens, .parse, .ast, .typecheck, .typedAst, .c]

def name : Command → String
  | .scan => "scan"
  | .tokens => "tokens"
  | .parse => "parse"
  | .ast => "ast"
  | .typecheck => "typecheck"
  | .typedAst => "typed-ast"
  | .c => "c"

/-- The last stage that a command needs. -/
def stage : Command → Stage
  | .scan | .tokens => .scan
  | .parse | .ast => .parse
  | .typecheck | .typedAst => .typecheck
  | .c => .codegen

end Command

/-- The options. -/
inductive Switch
  | verbose
  | noStrings
  | version
  | output
  deriving DecidableEq, Repr, Inhabited

/-- An option as it can be written: its letter, its long name, and whether the path of a file
belongs to it as its value. -/
structure Rule where
  switch : Switch
  letter : Option Char
  long : String
  valued : Bool
  deriving Repr

/-- What a program declares of its command line. -/
structure Interface where
  program : String
  version : String
  /-- The options in front of a command. -/
  general : List Rule
  /-- The commands, each with its own options. -/
  commands : List (Command × List Rule)

/-- The options of a command. -/
def Command.rules : Command → List Rule
  | .c => [⟨.output, some 'o', "--output", true⟩]
  | _ => []

/-- What this program declares. -/
def interface : Interface where
  program := "mlc"
  version := "0.1.0"
  general := [
    ⟨.verbose, some 'v', "--verbose", false⟩,
    ⟨.noStrings, none, "--no-strings", false⟩,
    ⟨.version, none, "--version", false⟩]
  commands := Command.all.map fun command => (command, command.rules)

/-- A command to carry out. -/
structure Job where
  command : Command
  verbose : Bool
  strings : Bool
  input : String
  output : Option String
  deriving DecidableEq, Repr, Inhabited

namespace Job

/-- The general options for a job. -/
def options (job : Job) : List String :=
  (if job.verbose then ["--verbose"] else []) ++ (if job.strings then [] else ["--no-strings"])

/-- The arguments for a job, written in full. -/
def arguments (job : Job) : List String :=
  job.options ++ job.command.name ::
    ((job.output.map fun path => ["--output", path]).getD [] ++ ["--", job.input])

end Job

/-- The exit status of a run without mistakes. -/
def success : Nat := 0

/-- The exit status of a run that found a mistake in its input. -/
def compileError : Nat := 1

/-- The exit status of arguments that are not understood or lead nowhere. -/
def misuse : Nat := 2

/-- The exit status of a failure that is not expected. -/
def internalError : Nat := 3

end ImpToC.CommandLine
