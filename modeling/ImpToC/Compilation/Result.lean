import ImpToC.Compilation

/-!
# Results

What a compilation has to show, and the stages as they are used on their own: each is given
what the stage in front of it has made, and the text only if it is known.
-/

namespace ImpToC

/-- All that a compilation has to show. What belongs to a stage that it has not gone through
is empty. -/
structure Result where
  file : String
  tokens : List Token := []
  program : Option Program := none
  symbols : Table String Ty := .empty
  types : Table Nat Ty := .empty
  text : String := ""

/-- A result without what the stages behind the given one have made. -/
def Result.upTo (r : Result) : Stage → Result
  | .scan => { file := r.file, tokens := r.tokens }
  | .parse => { file := r.file, tokens := r.tokens, program := r.program }
  | .typecheck => { r with text := "" }
  | .codegen => r

/-- What a compilation of a named text has to show. -/
def Compilation.result (file : String) (c : Compilation) : Result where
  file := file
  tokens := (c.sentence?.map Sentence.tokens).getD []
  program := c.program?
  symbols := (c.typing?.map Typing.symbols).getD .empty
  types := (c.typing?.map Typing.types).getD .empty
  text := (c.file?.map C.File.text).getD ""

variable [Host]

/-- Compile a text up to the last stage that is chosen: what there is to show then, or the
first mistake. -/
def Options.compile (o : Options) (file : Option String) (text : List Char) :
    Except Diagnostic Result :=
  let source := o.source file text
  (source.compile o.last).map (Compilation.result source.file)

namespace Stage

/-- Why a stage that is used on its own has nothing to show. -/
inductive Objection
  /-- It was given tokens that do not end in the end of a text. -/
  | endless
  /-- It has found a mistake. -/
  | mistake (d : Diagnostic)
  deriving DecidableEq, Repr

/-- The lines that are quoted: none if the text is not known. -/
def linesOf (text : Option (List Char)) : List (List Char) := (text.map Text.lines).getD []

/-- All tokens of a text. -/
def tokensOf (file : String) (strings : Bool) (text : List Char) :
    Except Objection (List Token) :=
  ((Sentence.ofSource file strings text).map Sentence.tokens).mapError .mistake

/-- The program that some tokens are. -/
def programOf (text : Option (List Char)) (tokens : List Token) : Except Objection Program :=
  match Sentence.ofTokens? tokens with
  | some s => (s.parse (linesOf text)).mapError .mistake
  | none => .error .endless

/-- The types of the variables and of the expressions of a program. -/
def typesOf (text : Option (List Char)) (p : Program) :
    Except Objection (Table String Ty × Table Nat Ty) :=
  ((p.typing (linesOf text)).map fun t => (t.symbols, t.types)).mapError .mistake

/-- The text of C for a program with tables of types. -/
def codeOf (p : Program) (symbols : Table String Ty) (types : Table Nat Ty) :
    Except Objection String :=
  ((p.code symbols types).map C.File.text).mapError .mistake

/-- The stages in turn, each used on its own, up to the last one. -/
def compose (file : String) (strings : Bool) (text : List Char) (last : Stage) :
    Except Objection Result := do
  let tokens ← tokensOf file strings text
  if last = .scan then return { file, tokens }
  let program ← programOf (some text) tokens
  if last = .parse then return { file, tokens, program }
  let (symbols, types) ← typesOf (some text) program
  if last = .typecheck then return { file, tokens, program, symbols, types }
  let code ← codeOf program symbols types
  return { file, tokens, program, symbols, types, text := code }

end Stage

end ImpToC
