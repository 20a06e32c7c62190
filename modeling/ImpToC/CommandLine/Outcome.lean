import ImpToC.CommandLine.Library
import ImpToC.Syntax.Outline

/-!
# Outcomes

What a run of the program does: its exit status, what it writes on its two
streams, and the file that it makes. A run compiles its input up to the stage of
its command and shows the result; only a successful compilation writes anything
but messages. Results and messages are shown text by text as the library shows
them; files and the lines that are told on demand are written as they are.
-/

namespace ImpToC.CommandLine

/-- The outcome of a run: how it ends, and the file that it makes. -/
structure Outcome extends Ending where
  written : Option (String × String)
  deriving DecidableEq, Repr, Inhabited

namespace Outcome

/-- An outcome on a disk, with the disk after. -/
def on (outcome : Outcome) (disk : Disk) : Outcome × Disk :=
  match outcome.written with
  | none => (outcome, disk)
  | some (path, text) => (outcome, disk.write path text.toUTF8.toList)

variable [Library]

/-- A run that ends with a message, after the lines in `log`. -/
def failure (status : Nat) (log message : String) : Outcome :=
  ⟨⟨status, some ("", log ++ Library.shown (message ++ "\n"))⟩, none⟩

/-- A run that shows some texts one after the other. -/
def result (texts : List String) (log : String) : Outcome :=
  ⟨⟨success, some (String.join (texts.map Library.shown), log)⟩, none⟩

end Outcome

/-- A missing folder is a mistake in the arguments; the other refusals are not
expected. -/
def refusalStatus : Refusal → Nat
  | .noFolder => misuse
  | .isFolder | .underFile | .overlong => internalError

/-- The message of a refusal for a path as it is shown. -/
def refusalMessage (shown : String) : Refusal → String
  | .noFolder => "Error: [Errno 2] No such file or directory: " ++ shown
  | .isFolder => "Internal error: [Errno 21] Is a directory: " ++ shown
  | .underFile => "Internal error: [Errno 20] Not a directory: " ++ shown
  | .overlong => "Internal error: [Errno 36] File name too long: " ++ shown

/-- The name of standard input in messages. -/
def standardInputName : String := "<stdin>"

/-- Texts that end in the end of a line each. -/
def asLines (lines : List String) : List String := lines.map (· ++ "\n")

namespace Command

/-- The texts that a command shows of a compilation, one after the other. -/
def texts (command : Command) (c : Compilation) : List String :=
  match command with
  | .scan | .parse | .typecheck => []
  | .tokens => asLines ((c.sentence?.map Sentence.tokens).getD [] |>.map Token.listing)
  | .ast => asLines (c.program?.map (Program.render none)).toList
  | .typedAst => asLines (c.program?.map (Program.render (c.typing?.map Typing.types))).toList
  | .c => (c.file?.map C.File.text).toList

/-- What a command makes of a compilation. -/
def result (command : Command) (c : Compilation) : String := String.join (command.texts c)

end Command

namespace Job

/-- The source of a job with a given text. -/
def source (job : Job) (text : List Char) : Source where
  file := if job.input = "-" then standardInputName else job.input
  strings := job.strings
  text := text

/-- The lines that are told only on demand. -/
def logged (job : Job) (lines : List String) : String :=
  if job.verbose then String.join (asLines (lines.map ("DEBUG: " ++ ·))) else ""

/-- What there is to read for a job: the standard input, or a file. -/
def content? (job : Job) (disk : Disk) (standardInput : List UInt8) : Option (List UInt8) :=
  if job.input = "-" then some standardInput else (disk.look job.input).content?

/-- The path of the output of a job, with what stands where its plain form leads. -/
def target? (job : Job) (disk : Disk) : Option (String × Entry) :=
  job.output.map fun path => (path, disk.look (Path.plain path))

variable [Library]

/-- The end of a job whose result goes to a path in plain form. -/
def deliver (job : Job) (log result path : String) (target : Entry) : Outcome :=
  match target.refusal? with
  | none =>
    ⟨⟨success, some ("", log ++ job.logged ["Wrote " ++ path])⟩, some (path, result)⟩
  | some refusal =>
    .failure (refusalStatus refusal) log (refusalMessage (Text.Quoted.quote path) refusal)

variable [Host]

/-- Compile a text and show or deliver the result. The output goes where `target`
stands. -/
def compile (job : Job) (text : List Char) (target : Option (String × Entry)) : Outcome :=
  let source := job.source text
  match Compilation.upTo source job.command.stage with
  | (c, some d) => .failure compileError (job.logged (c.log source.file)) d.render
  | (c, none) =>
    let stopped := source.file ++ ": stopped after " ++ job.command.stage.name
    let log := job.logged (c.log source.file ++ [stopped])
    match target with
    | none => .result (job.command.texts c) log
    | some (path, entry) => job.deliver log (job.command.result c) (Path.plain path) entry

/-- Carry out a job on an input that has been admitted. -/
def perform (job : Job) (content : List UInt8) (target : Option (String × Entry)) : Outcome :=
  match readText content with
  | .error fault => .failure misuse "" ("Error: " ++ fault.message)
  | .ok text => job.compile text target

end Job

variable [Library] [Host]

/-- Run the program on a disk: the outcome, and the disk after. -/
def runOn (disk : Disk) (standardInput : List UInt8) (arguments : List String) :
    Outcome × Disk :=
  match Library.request interface arguments with
  | .settled ending => (⟨ending, none⟩, disk)
  | .run job =>
    match Library.grant (job.content? disk standardInput) (job.target? disk) with
    | .error ending => (⟨ending, none⟩, disk)
    | .ok content => (job.perform content (job.target? disk)).on disk

end ImpToC.CommandLine
