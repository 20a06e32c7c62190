import ImpToC.CommandLine.Arguments
import ImpToC.Disk

/-!
# Libraries

What the program leaves to a library for command lines. The library finds out what the arguments ask
for, it sees to the files that they name before a command is carried out, and it shows texts on the
streams. What it does in the end may depend on where the streams lead, so no more is asked of it
here than what it promises.
-/

namespace ImpToC.CommandLine

/-- How a run ends: with an exit status, and with what is on its two streams then. Where the usage is
explained, the wording of the streams is left open. -/
structure Ending where
  status : Nat
  streams : Option (String × String)
  deriving DecidableEq, Repr, Inhabited

/-- What arguments ask for. -/
inductive Request
  /-- Something that the library does by itself, such as to explain the usage. -/
  | settled (ending : Ending)
  /-- To carry out a command. -/
  | run (job : Job)
  deriving DecidableEq, Repr, Inhabited

/-- A library for command lines. -/
class Library where
  /-- What arguments ask for, given what the program declares. -/
  request : Interface → List String → Request
  /-- Admit what there is to read, or end the run. The library is told what stands at the path of
  the output, if there is one. -/
  grant : Option (List UInt8) → Option (String × Entry) → Except Ending (List UInt8)
  /-- What is on a stream when a text has been shown there. -/
  shown : String → String

/-- What a library promises. The arguments for a job, written in full, ask for this job, if it has a
path for its output only where that is C. What there is to read is admitted, unless a folder stands
at the path of the output: then the arguments are not in order. And a text with no control sequence
of a terminal in it is shown as it is. -/
structure Library.Documented (library : Library) : Prop where
  request : ∀ job : Job, (job.output ≠ none → job.command = .c) →
    library.request interface job.arguments = .run job
  grant : ∀ content output, (∀ path, output = some (path, .folder) → path = "") →
    library.grant (some content) output = .ok content
  folder : ∀ content path, path ≠ "" → ∃ ending,
    library.grant (some content) (some (path, .folder)) = .error ending ∧ ending.status = misuse
  shown : ∀ text, '\x1b' ∉ text.toList → library.shown text = text

end ImpToC.CommandLine
