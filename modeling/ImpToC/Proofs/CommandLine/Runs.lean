import ImpToC.CommandLine.Outcome
import ImpToC.Proofs.CommandLine.Libraries
import ImpToC.Proofs.Staging

/-!
# Runs of the program

What a run on a text comes to: its exit status tells whether the text compiles up to the stage of
its command, its message is the mistake that stops it, and a file is written only if there is none.
Runs of several commands on one text agree on that. The library is any one that keeps its promises.
-/

namespace ImpToC

namespace CommandLine

theorem compileError_ne_success : compileError ≠ success := by decide

theorem misuse_ne_success : misuse ≠ success := by decide

/-! ## Jobs -/

namespace Job

/-- The input of a job can be read, and it holds a text. -/
def Reads (job : Job) (disk : Disk) (standardInput : List UInt8) (text : List Char) : Prop :=
  ∃ content, job.content? disk standardInput = some content ∧ readText content = .ok text

theorem target?_of_output_none {job : Job} {disk : Disk} (h : job.output = none) :
    job.target? disk = none := by
  rw [target?, h]
  rfl

variable [library : Library]

/-- How a job is rejected, after some lines that are told on demand: nothing is shown as a
result, and the message is the mistake. -/
def rejection (job : Job) (lines : List String) (d : Diagnostic) : Outcome :=
  .failure compileError (job.logged lines) d.render

variable [Host] {job : Job} {text : List Char} {target : Option (String × Entry)} {c : Compilation}
  {d : Diagnostic}

theorem compile_of_error
    (h : Compilation.upTo (job.source text) job.command.stage = (c, some d)) :
    job.compile text target = job.rejection (c.log (job.source text).file) d := by
  unfold compile
  dsimp only
  rw [h]
  rfl

theorem compile_of_ok (target : Option (String × Entry))
    (h : Compilation.upTo (job.source text) job.command.stage = (c, none)) :
    ∃ lines, job.compile text target =
      match target with
      | none => .result (job.command.texts c) (job.logged lines)
      | some (path, entry) =>
        job.deliver (job.logged lines) (job.command.result c) (Path.plain path) entry := by
  unfold compile
  dsimp only
  rw [h]
  cases target <;> exact ⟨_, rfl⟩

omit [Host] in
/-- A job delivers its result with success, or it writes nothing. -/
theorem deliver_cases (job : Job) (log result path : String) (entry : Entry) :
    ((job.deliver log result path entry).status = success ∧
      (job.deliver log result path entry).written = some (path, result)) ∨
    (job.deliver log result path entry).status ≠ success ∧
      (job.deliver log result path entry).written = none := by
  unfold deliver
  cases hrefusal : entry.refusal? with
  | none => exact .inl ⟨rfl, rfl⟩
  | some refusal =>
      right
      refine ⟨?_, rfl⟩
      cases refusal <;> exact nofun

end Job

/-! ## Runs -/

section Runs

variable [library : Library] [Host]

/-- How a run ends that shows what becomes of a text: with success if the text compiles up to the
stage of the command, and else with the mistake that stops it. Nothing is written to the disk. -/
structure Job.Shows (job : Job) (text : List Char) (disk : Disk) (run : Outcome × Disk) :
    Prop where
  disk : run.2 = disk
  status : run.1.status = success ∨ run.1.status = compileError
  success_iff : run.1.status = success ↔
    ∃ c, (job.source text).compile job.command.stage = .ok c
  result : ∀ c, (job.source text).compile job.command.stage = .ok c →
    ∃ lines, run.1 = .result (job.command.texts c) (job.logged lines)
  rejection : ∀ d, (job.source text).compile job.command.stage = .error d →
    ∃ lines, run.1 = job.rejection lines d
  /-- The message is all there is, unless more is asked for: the mistake, as the library shows it. -/
  message : ∀ d, (job.source text).compile job.command.stage = .error d → job.verbose = false →
    run.1.streams = some ("", library.shown (d.render ++ "\n"))
  /-- It is the mistake to the letter where a terminal finds no command in it. -/
  verbatim : ∀ d, (job.source text).compile job.command.stage = .error d →
    '\x1b' ∉ d.render.toList → library.shown (d.render ++ "\n") = d.render ++ "\n"

/-- How a run ends whose result goes to a path: it writes the result of a compilation there, and
this is a success, or the disk stays as it is. -/
structure Job.Delivers (job : Job) (path : String) (text : List Char) (disk : Disk)
    (run : Outcome × Disk) : Prop where
  success_iff : run.1.status = success ↔ ∃ entry, run.1.written = some entry
  written : ∀ entry, run.1.written = some entry →
    ∃ c, (job.source text).compile job.command.stage = .ok c ∧
      entry = (Path.plain path, job.command.result c) ∧
      run.2 = disk.write entry.1 entry.2.toUTF8.toList
  untouched : run.1.written = none → run.2 = disk
  rejection : ∀ d, (job.source text).compile job.command.stage = .error d →
    run.2 = disk ∧ ((disk.look (Path.plain path) = .folder → path = "") →
      ∃ lines, run.1 = job.rejection lines d)

variable {disk : Disk} {standardInput : List UInt8} {arguments : List String} {job : Job}
  {text : List Char}

/-- What a run comes to is a matter of the job that its arguments ask for. -/
theorem runOn_congr {arguments' : List String}
    (h : library.request interface arguments = library.request interface arguments') :
    runOn disk standardInput arguments = runOn disk standardInput arguments' := by
  rw [runOn, runOn, h]

/-- A job whose input is admitted compiles the text there, and its outcome is carried out. -/
theorem runOn_of_grant {content : List UInt8}
    (hrequest : library.request interface arguments = .run job)
    (hgrant : library.grant (job.content? disk standardInput) (job.target? disk) = .ok content)
    (htext : readText content = .ok text) :
    runOn disk standardInput arguments = (job.compile text (job.target? disk)).on disk := by
  have hperform : job.perform content (job.target? disk) = job.compile text (job.target? disk) := by
    rw [Job.perform, htext]
  unfold runOn
  rw [hrequest]
  dsimp only
  rw [hgrant]
  dsimp only
  rw [hperform]

theorem runOn_of_written_none {content : List UInt8}
    (hrequest : library.request interface arguments = .run job)
    (hgrant : library.grant (job.content? disk standardInput) (job.target? disk) = .ok content)
    (htext : readText content = .ok text) {outcome : Outcome}
    (houtcome : job.compile text (job.target? disk) = outcome) (hwritten : outcome.written = none) :
    runOn disk standardInput arguments = (outcome, disk) := by
  rw [runOn_of_grant hrequest hgrant htext, houtcome, Outcome.on, hwritten]

section Shown

variable (hlibrary : library.Documented) (htext : job.Reads disk standardInput text)
  (houtput : job.output = none)

include hlibrary htext houtput

omit [Host] in
/-- The input of a job that shows its result is always admitted. -/
theorem exists_grant_of_output_none :
    library.request interface job.arguments = .run job ∧
      ∃ content, library.grant (job.content? disk standardInput) (job.target? disk) = .ok content ∧
        readText content = .ok text := by
  obtain ⟨content, hcontent, hread⟩ := htext
  refine ⟨hlibrary.request job fun h => absurd houtput h, content, ?_, hread⟩
  rw [hcontent, Job.target?_of_output_none houtput]
  exact hlibrary.grant content none nofun

theorem runOn_of_error {c : Compilation} {d : Diagnostic}
    (h : Compilation.upTo (job.source text) job.command.stage = (c, some d)) :
    runOn disk standardInput job.arguments =
      (job.rejection (c.log (job.source text).file) d, disk) := by
  obtain ⟨hrequest, content, hgrant, hread⟩ := exists_grant_of_output_none hlibrary htext houtput
  exact runOn_of_written_none hrequest hgrant hread (Job.compile_of_error h) rfl

theorem runOn_of_ok {c : Compilation}
    (h : Compilation.upTo (job.source text) job.command.stage = (c, none)) :
    ∃ lines, runOn disk standardInput job.arguments =
      (.result (job.command.texts c) (job.logged lines), disk) := by
  obtain ⟨hrequest, content, hgrant, hread⟩ := exists_grant_of_output_none hlibrary htext houtput
  obtain ⟨lines, hcompile⟩ := Job.compile_of_ok (job.target? disk) h
  rw [Job.target?_of_output_none houtput] at hcompile
  refine ⟨lines, runOn_of_written_none hrequest hgrant hread ?_ rfl⟩
  rw [Job.target?_of_output_none houtput, hcompile]

theorem shows_of_output_none : job.Shows text disk (runOn disk standardInput job.arguments) := by
  have hverbatim (d : Diagnostic) (hclean : '\x1b' ∉ d.render.toList) :
      library.shown (d.render ++ "\n") = d.render ++ "\n" :=
    hlibrary.shown _ (by simp [hclean])
  rcases (job.source text).compile_cases job.command.stage with
    ⟨c, hrun, hok⟩ | ⟨c, d, hrun, herror⟩
  · obtain ⟨lines, hresult⟩ := runOn_of_ok hlibrary htext houtput hrun
    rw [hresult]
    refine ⟨rfl, .inl rfl, ⟨fun _ => ⟨c, hok⟩, fun _ => rfl⟩, ?_, ?_, ?_, fun d _ => hverbatim d⟩
    · intro c' hc'
      cases hok.symm.trans hc'
      exact ⟨lines, rfl⟩
    · intro d hd
      cases hok.symm.trans hd
    · intro d hd
      cases hok.symm.trans hd
  · rw [runOn_of_error hlibrary htext houtput hrun]
    refine ⟨rfl, .inr rfl, ⟨fun h => absurd h compileError_ne_success, ?_⟩, ?_, ?_, ?_,
      fun d _ => hverbatim d⟩
    · rintro ⟨c', hc'⟩
      cases herror.symm.trans hc'
    · intro c' hc'
      cases herror.symm.trans hc'
    · intro d' hd'
      cases herror.symm.trans hd'
      exact ⟨_, rfl⟩
    · intro d' hd' hverbose
      cases herror.symm.trans hd'
      have hnone : job.logged (c.log (job.source text).file) = "" := by
        simp [Job.logged, hverbose]
      show (job.rejection _ d).streams = _
      rw [Job.rejection, hnone, Outcome.failure, String.empty_append]

end Shown

theorem delivers_of_written_none {path : String} {outcome : Outcome}
    (hstatus : outcome.status ≠ success) (hwritten : outcome.written = none)
    (hrejection : ∀ d, (job.source text).compile job.command.stage = .error d →
      (disk.look (Path.plain path) = .folder → path = "") →
        ∃ lines, outcome = job.rejection lines d) :
    job.Delivers path text disk (outcome, disk) := by
  refine ⟨⟨fun h => absurd h hstatus, ?_⟩, ?_, fun _ => rfl, fun d hd => ⟨rfl, hrejection d hd⟩⟩
  · rintro ⟨entry, hentry⟩
    cases hwritten.symm.trans hentry
  · intro entry hentry
    cases hwritten.symm.trans hentry

/-- A job whose output is to go where a folder stands ends without having been carried out. -/
theorem delivers_of_folder (hlibrary : library.Documented)
    (htext : job.Reads disk standardInput text) {path : String} (houtput : job.output = some path)
    (hrequest : library.request interface arguments = .run job)
    (hfolder : disk.look (Path.plain path) = .folder) (hpath : path ≠ "") :
    job.Delivers path text disk (runOn disk standardInput arguments) := by
  obtain ⟨content, hcontent, -⟩ := htext
  have htarget : job.target? disk = some (path, .folder) := by
    rw [Job.target?, houtput, Option.map_some, hfolder]
  obtain ⟨ending, hending, hstatus⟩ := hlibrary.folder content path hpath
  have hrun : runOn disk standardInput arguments = (⟨ending, none⟩, disk) := by
    unfold runOn
    rw [hrequest]
    dsimp only
    rw [hcontent, htarget, hending]
  rw [hrun]
  refine delivers_of_written_none (fun h => misuse_ne_success (hstatus.symm.trans h)) rfl ?_
  intro d _ hplain
  exact absurd (hplain hfolder) hpath

theorem delivers_of_output_some (hlibrary : library.Documented)
    (htext : job.Reads disk standardInput text) {path : String} (houtput : job.output = some path)
    (hrequest : library.request interface arguments = .run job) :
    job.Delivers path text disk (runOn disk standardInput arguments) := by
  have htarget : job.target? disk = some (path, disk.look (Path.plain path)) := by
    rw [Job.target?, houtput, Option.map_some]
  by_cases hfolder : disk.look (Path.plain path) = .folder → path = ""
  · obtain ⟨content, hcontent, hread⟩ := htext
    have hgrant : library.grant (job.content? disk standardInput) (job.target? disk) =
        .ok content := by
      rw [hcontent, htarget]
      refine hlibrary.grant content _ fun path' heq => ?_
      obtain ⟨rfl, hentry⟩ := Prod.mk.inj (Option.some.inj heq)
      exact hfolder hentry
    rcases (job.source text).compile_cases job.command.stage with
      ⟨c, hrun, hok⟩ | ⟨c, d, hrun, herror⟩
    · obtain ⟨lines, houtcome⟩ := Job.compile_of_ok (job.target? disk) hrun
      rw [htarget] at houtcome
      rcases job.deliver_cases (job.logged lines) (job.command.result c) (Path.plain path)
        (disk.look (Path.plain path)) with ⟨hstatus, hwritten⟩ | ⟨hstatus, hwritten⟩
      · rw [runOn_of_grant hrequest hgrant hread, htarget, houtcome, Outcome.on, hwritten]
        refine ⟨⟨fun _ => ⟨_, hwritten⟩, fun _ => hstatus⟩, ?_, ?_, ?_⟩
        · intro entry hentry
          cases hwritten.symm.trans hentry
          exact ⟨c, hok, rfl, rfl⟩
        · intro hnone
          cases hwritten.symm.trans hnone
        · intro d hd
          cases hok.symm.trans hd
      · rw [runOn_of_written_none hrequest hgrant hread (htarget ▸ houtcome) hwritten]
        apply delivers_of_written_none hstatus hwritten
        intro d hd
        cases hok.symm.trans hd
    · rw [runOn_of_written_none hrequest hgrant hread (Job.compile_of_error hrun) rfl]
      refine delivers_of_written_none compileError_ne_success rfl ?_
      intro d' hd' _
      cases herror.symm.trans hd'
      exact ⟨_, rfl⟩
  · obtain ⟨hentry, hpath⟩ := Classical.not_imp.mp hfolder
    exact delivers_of_folder hlibrary htext houtput hrequest hentry hpath

/-- The exit status and the output of runs on a text that can be read agree with the compiler and
with each other, with any library that keeps its promises. A run whose result is shown ends with
success just if the text compiles up to the stage of its command, and else with the status of a
mistake, nothing on the standard output, and the mistake as its message; it has no other status, and
the disk stays as it is. A run that has a path for its result writes there only what has been
compiled, and else leaves the disk as it is. Of two runs on one input, the one whose command has the
earlier stage ends with success if the other one does; and if it ends with a mistake, the other one
ends with that mistake too. Other arguments that ask for the same job come to the same run. -/
theorem runs_coherent (hlibrary : library.Documented) {disk : Disk} {standardInput : List UInt8}
    {job : Job} (hcommand : job.output ≠ none → job.command = .c) {text : List Char}
    (htext : job.Reads disk standardInput text) :
    let run := runOn disk standardInput job.arguments
    (job.output = none → job.Shows text disk run) ∧
      (∀ path, job.output = some path → job.Delivers path text disk run) ∧
      (∀ job' : Job, job'.input = job.input → job'.strings = job.strings →
        job.output = none → job'.output = none →
        job.command.stage.count ≤ job'.command.stage.count →
        let run' := runOn disk standardInput job'.arguments
        (run'.1.status = success → run.1.status = success) ∧
          (run.1.status = compileError → ∃ lines d,
            run.1 = job.rejection lines d ∧ run'.1 = job'.rejection lines d)) ∧
      ∀ arguments, library.request interface arguments = .run job →
        runOn disk standardInput arguments = run := by
  intro run
  have hrequest := hlibrary.request job hcommand
  refine ⟨shows_of_output_none hlibrary htext,
    fun path houtput => delivers_of_output_some hlibrary htext houtput hrequest, ?_,
    fun arguments hsame => runOn_congr (hsame.trans hrequest.symm)⟩
  intro job' hinput hstrings houtput houtput' hstages run'
  have hsource : job'.source text = job.source text := by
    rw [Job.source, Job.source, hinput, hstrings]
  have htext' : job'.Reads disk standardInput text := by
    rwa [Job.Reads, Job.content?, hinput]
  rcases (job.source text).compile_cases job.command.stage with
    ⟨c, hrun, -⟩ | ⟨c, d, hrun, -⟩
  · obtain ⟨lines, hresult⟩ := runOn_of_ok hlibrary htext houtput hrun
    have hstatus : run.1.status = success := congrArg (fun r => r.1.status) hresult
    constructor
    · exact fun _ => hstatus
    · intro hmistake
      exact absurd (hmistake.symm.trans hstatus) compileError_ne_success
  · have hrun' : Compilation.upTo (job'.source text) job'.command.stage = (c, some d) := by
      rw [hsource]
      exact Compilation.upTo_later_of_error hstages hrun
    have hresult := runOn_of_error hlibrary htext houtput hrun
    have hresult' := runOn_of_error hlibrary htext' houtput' hrun'
    rw [hsource] at hresult'
    have hstatus' : run'.1.status = compileError := congrArg (fun r => r.1.status) hresult'
    constructor
    · intro hsuccess
      exact absurd (hstatus'.symm.trans hsuccess) compileError_ne_success
    · intro _
      exact ⟨_, d, congrArg Prod.fst hresult, congrArg Prod.fst hresult'⟩

end Runs

/-- `print x;` on the standard input is a mistake for `typecheck`, so `c` ends with it as well. -/
theorem runs_coherent_undeclared :
    let input : List UInt8 := [112, 114, 105, 110, 116, 32, 120, 59]
    let job : Job := ⟨.typecheck, false, true, "-", none⟩
    let job' : Job := ⟨.c, true, true, "-", none⟩
    let run := @runOn .plain .unlimited (.ofFiles []) input ["typecheck", "--", "-"]
    let run' := @runOn .plain .unlimited (.ofFiles []) input ["--verbose", "c", "--", "-"]
    Library.plain.Documented ∧ job.Reads (.ofFiles []) input "print x;".toList ∧
      run.1.status = compileError ∧ run.2 = .ofFiles [] ∧
      ∃ lines d, run.1 = @Job.rejection .plain job lines d ∧
        run'.1 = @Job.rejection .plain job' lines d := by
  intro input job job' run run'
  have htext : job.Reads (.ofFiles []) input "print x;".toList := by
    refine ⟨input, rfl, ?_⟩
    decide +kernel
  have hstatus : run.1.status = compileError := by
    decide +kernel
  obtain ⟨hshows, -, hothers, -⟩ :=
    @runs_coherent .plain .unlimited Library.documented_plain _ _ job nofun _ htext
  have hboth := hothers job' rfl rfl rfl rfl (by decide)
  obtain ⟨hdisk, -⟩ := hshows rfl
  exact ⟨Library.documented_plain, htext, hstatus, hdisk, hboth.2 hstatus⟩

end CommandLine

end ImpToC
