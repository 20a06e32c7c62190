import ImpToC.CommandLine.Outcome

/-!
# The program

Reads the arguments, the input and what stands in the place of the output, and
carries out the outcome. All decisions are made before anything is written. The
program runs on any host, with any library for command lines.
-/

namespace ImpToC.CommandLine

/-- What an error in reading says of the place that was to be read. -/
def entryOfError : IO.Error → Entry
  | .inappropriateType _ code _ => if code = 21 then .folder else .blocked
  | .noFileOrDirectory .. => .unreachable
  | .invalidArgument _ code _ => if code = 36 then .overlong else .vacant
  | _ => .vacant

/-- Find out what a path leads to. -/
def probe (path : String) : IO Entry := do
  try
    let content ← IO.FS.readBinFile path
    return .file content.toList
  catch error =>
    return entryOfError error

/-- Find out what stands where output goes. A place without an entry can be
written to if its folder is there. -/
def probeTarget (path : String) : IO Entry := do
  match ← probe path with
  | .unreachable =>
    let folder := "/".intercalate (path.splitOn "/").dropLast
    let place ← probe (if folder = "" then "." else folder)
    return if place = .folder then .vacant else .unreachable
  | entry => return entry

/-- Everything that standard input holds. -/
def readStandardInput : IO (List UInt8) := do
  let input ← IO.getStdin
  let content ← input.readBinToEnd
  return content.toList

/-- Carry out an outcome. A usage is explained by the library itself. -/
def Outcome.act (outcome : Outcome) : IO UInt32 := do
  match outcome.written with
  | some (path, text) => IO.FS.writeFile path text
  | none => pure ()
  match outcome.streams with
  | some (out, err) =>
    IO.print out
    IO.eprint err
  | none => pure ()
  return outcome.status.toUInt32

/-- The program itself: its exit status tells how the run went. -/
def runProgram [Library] [Host] (arguments : List String) : IO UInt32 := do
  match Library.request interface arguments with
  | .settled ending => Outcome.act ⟨ending, none⟩
  | .run job =>
    let input ←
      if job.input = "-" then
        let content ← readStandardInput
        pure (some content)
      else
        let entry ← probe job.input
        pure entry.content?
    let target ←
      match job.output with
      | some path =>
        let entry ← probeTarget (Path.plain path)
        pure (some (path, entry))
      | none => pure none
    match Library.grant input target with
    | .error ending => Outcome.act ⟨ending, none⟩
    | .ok content => (job.perform content target).act

end ImpToC.CommandLine
