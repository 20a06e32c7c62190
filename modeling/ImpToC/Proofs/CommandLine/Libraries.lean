import ImpToC.CommandLine.Library

/-!
# Plain libraries

A library can keep to what it has promised and do no more: it understands arguments that are written
in full, in one order, and it shows all texts as they are.
-/

namespace ImpToC.CommandLine

/-- Take an option from the front of arguments, if it is there. -/
def takeFlag (flag : String) : List String → Bool × List String
  | [] => (false, [])
  | argument :: rest => if argument = flag then (true, rest) else (false, argument :: rest)

/-- The arguments of a command, behind its name. -/
def takeFiles : List String → Option (String × Option String)
  | ["--", input] => some (input, none)
  | ["--output", path, "--", input] => some (input, some path)
  | _ => none

/-- A job that is asked for by arguments in full. -/
def plainJob? (interface : Interface) (arguments : List String) : Option Job :=
  let verbose := takeFlag "--verbose" arguments
  let noStrings := takeFlag "--no-strings" verbose.2
  match noStrings.2 with
  | [] => none
  | name :: rest => do
    let c ← interface.commands.find? fun c => c.1.name = name
    let files ← takeFiles rest
    return ⟨c.1, verbose.1, !noStrings.1, files.1, files.2⟩

/-- A library that keeps to what it has promised. -/
@[reducible] def Library.plain : Library where
  request interface arguments :=
    match plainJob? interface arguments with
    | some job => .run job
    | none => .settled ⟨misuse, none⟩
  grant input output :=
    match input with
    | none => .error ⟨misuse, none⟩
    | some content =>
      if output.any fun target => target.1 ≠ "" ∧ target.2 = .folder then .error ⟨misuse, none⟩
      else .ok content
  shown text := text

/-! ## Arguments in full -/

variable {flag : String} {arguments : List String}

theorem takeFlag_of_ne {argument : String} {rest : List String} (h : argument ≠ flag) :
    takeFlag flag (argument :: rest) = (false, argument :: rest) := if_neg h

/-- An option that is there or not is taken from in front of another argument. -/
theorem takeFlag_append (given : Bool) {argument : String} {rest : List String}
    (h : argument ≠ flag) :
    takeFlag flag ((if given then [flag] else []) ++ argument :: rest) =
      (given, argument :: rest) := by
  cases given with
  | true => exact if_pos rfl
  | false => exact takeFlag_of_ne h

theorem plainJob?_eq {verbose noStrings : Bool} {further rest : List String} {name : String}
    {command : Command} {rules : List Rule} {files : String × Option String}
    (hverbose : takeFlag "--verbose" arguments = (verbose, further))
    (hstrings : takeFlag "--no-strings" further = (noStrings, name :: rest))
    (hcommand : interface.commands.find? (fun c => c.1.name = name) = some (command, rules))
    (hfiles : takeFiles rest = some files) :
    plainJob? interface arguments = some ⟨command, verbose, !noStrings, files.1, files.2⟩ := by
  unfold plainJob?
  rw [hverbose]
  dsimp only
  rw [hstrings]
  dsimp only
  rw [hcommand, hfiles]
  rfl

theorem plainJob?_arguments (job : Job) : plainJob? interface job.arguments = some job := by
  obtain ⟨command, verbose, strings, input, output⟩ := job
  have hcommand : interface.commands.find? (fun c => c.1.name = command.name) =
      some (command, command.rules) := by
    cases command <;> rfl
  have hfiles : takeFiles ((output.map fun path => ["--output", path]).getD [] ++ ["--", input]) =
      some (input, output) := by
    cases output <;> rfl
  have hverbose : command.name ≠ "--verbose" := by cases command <;> decide
  have hstrings : command.name ≠ "--no-strings" := by cases command <;> decide
  rw [Job.arguments, Job.options, List.append_assoc]
  cases strings with
  | true => exact plainJob?_eq (takeFlag_append verbose hverbose) (takeFlag_of_ne hstrings) hcommand hfiles
  | false =>
      exact plainJob?_eq (takeFlag_append verbose (by decide)) (if_pos rfl) hcommand hfiles

/-- It keeps its promises. -/
theorem Library.documented_plain : Library.plain.Documented where
  request job _ := by
    show (match plainJob? interface job.arguments with
      | some job => Request.run job
      | none => _) = _
    rw [plainJob?_arguments]
  grant content output h := by
    refine if_neg fun hfolder => ?_
    obtain ⟨⟨path, entry⟩, rfl, hany⟩ := (Option.any_eq_true ..).mp hfolder
    obtain ⟨hpath, rfl⟩ := of_decide_eq_true hany
    exact hpath (h path rfl)
  folder content path h := by
    refine ⟨⟨misuse, none⟩, if_pos ?_, rfl⟩
    simpa using h
  shown text _ := rfl

end ImpToC.CommandLine
