import ByteMachine.Command.Execute
import ByteMachine.Proofs.Exports
import ByteMachine.Proofs.Reencoding
import ByteMachine.Proofs.StepLimits

/-!
From a source file to the output of its program. What is written to a file is read back from it, so
the module that is run is the one that was assembled, and the command that runs it prints what the
program writes and tells by its exit code how the run ended.
-/
namespace ByteMachine

/-! ## Files -/

namespace Directory

variable {d d' : Directory} {p q : Place} {entry : Entry} {bytes : List UInt8}

theorem lookup_filter_of_ne (d : Directory) (h : q ≠ p) :
    List.lookup q (d.filter fun e => e.1 ≠ p) = d.lookup q := by
  induction d with
  | nil => rfl
  | cons e d ih =>
    by_cases he : e.1 = p
    · have hq : (q == e.1) = false := by simp [he, h]
      rw [List.filter_cons_of_neg (by simp [he]), ih, List.lookup_cons, hq]
    · rw [List.filter_cons_of_pos (by simp [he]), List.lookup_cons, List.lookup_cons, ih]

theorem find?_set_of_ne (h : q ≠ p) : (d.set p entry).find? q = d.find? q := by
  have hq : (q == p) = false := by simp [h]
  rw [find?, find?, set, List.lookup_cons, hq]
  simp only [lookup_filter_of_ne d h]

theorem find?_set_child (name : String) :
    (d.set (p.child name) entry).find? (p.child name) = some entry := by
  simp [find?, set, Place.child]

theorem checkFolder_eq_ok_iff : d.checkFolder p = .ok () ↔ d.find? p = some .folder := by
  unfold checkFolder
  split <;> simp_all

/-- A file that is no folder is none of the folders on a way. -/
theorem checkFolder_set (hfree : d.find? p ≠ some .folder) (h : d.checkFolder q = .ok ()) :
    (d.set p entry).checkFolder q = .ok () := by
  rw [checkFolder_eq_ok_iff] at h ⊢
  have hne : q ≠ p := by
    rintro rfl
    exact hfree h
  rw [find?_set_of_ne hne, h]

theorem takeStep_set (hfree : d.find? p ≠ some .folder) {step : Step} {r : Place}
    (h : d.takeStep q step = .ok r) : (d.set p entry).takeStep q step = .ok r := by
  obtain ⟨⟨⟩, hfolder, h⟩ := exists_ok_of_bind h
  simp only [takeStep, checkFolder_set hfree hfolder, bind, Except.bind]
  exact h

theorem foldlM_takeStep_set (hfree : d.find? p ≠ some .folder) {steps : List Step} {r : Place}
    (h : steps.foldlM d.takeStep q = .ok r) :
    steps.foldlM (d.set p entry).takeStep q = .ok r := by
  induction steps generalizing q with
  | nil => exact h
  | cons step steps ih =>
    rw [List.foldlM_cons] at h ⊢
    obtain ⟨next, hnext, h⟩ := exists_ok_of_bind h
    rw [takeStep_set hfree hnext]
    exact ih h

/-- The place that a path is written to, and the folder that holds it. -/
theorem destination_cases {path : Path} (h : d.destination path = .ok p) :
    path.meansFolder = false ∧
      ∃ folder name, path.steps.dropLast.foldlM d.takeStep path.start = .ok folder ∧
        path.steps.getLast? = some (.down name) ∧ d.takeStep folder (.down name) = .ok p ∧
        p = folder.child name := by
  obtain ⟨folder, hfolder, h⟩ := exists_ok_of_bind h
  obtain ⟨⟨⟩, -, h⟩ := exists_ok_of_bind h
  split at h
  · next name hlast hmeans =>
    refine ⟨hmeans, folder, name, hfolder, hlast, h, ?_⟩
    obtain ⟨⟨⟩, -, h⟩ := exists_ok_of_bind h
    dsimp only at h
    split at h
    · cases h
      rfl
    · cases h
  · cases h

/-- A path that was written to leads to what was written. -/
theorem source_of_destination {path : Path} (h : d.destination path = .ok p)
    (hfree : d.find? p ≠ some .folder) (entry : Entry) :
    (d.set p entry).source path = .ok p := by
  obtain ⟨hmeans, folder, name, hfolder, hlast, hstep, -⟩ := destination_cases h
  obtain ⟨steps, hsteps⟩ := List.getLast?_eq_some_iff.1 hlast
  rw [hsteps, List.dropLast_concat] at hfolder
  have hwalk : path.steps.foldlM (d.set p entry).takeStep path.start = .ok p := by
    rw [hsteps, List.foldlM_append, foldlM_takeStep_set hfree hfolder]
    simp only [bind, Except.bind, List.foldlM_cons, List.foldlM_nil, takeStep_set hfree hstep]
    rfl
  simp only [source, hwalk, hmeans]
  rfl

theorem replaceBytes_cases {path : String} (h : d.replaceBytes path bytes = .ok d') :
    ∃ parsed p, parsePath path = .ok parsed ∧ d.destination parsed = .ok p ∧
      d.find? p ≠ some .folder ∧ d' = d.set p (.file bytes) := by
  obtain ⟨parsed, hparsed, h⟩ := exists_ok_of_bind h
  obtain ⟨p, hp, h⟩ := exists_ok_of_bind h
  refine ⟨parsed, p, hparsed, hp, ?_⟩
  split at h
  · cases h
  · next hfree =>
    cases h
    exact ⟨hfree, rfl⟩

/-- What is written to a file is read back from it. -/
theorem readFile_of_writeFile {path : String} (h : writeFile path bytes d = .ok () d') :
    d'.readFile path = .ok bytes := by
  unfold writeFile at h
  split at h
  · next after hreplace =>
    cases h
    obtain ⟨parsed, p, hparsed, hp, hfree, rfl⟩ := replaceBytes_cases hreplace
    obtain ⟨-, folder, name, -, -, -, rfl⟩ := destination_cases hp
    have hsource := source_of_destination hp hfree (.file bytes)
    simp only [readFile, bytesAt, hparsed, hsource, find?_set_child, bind, Except.bind]
    rfl
  · cases h

def placeOf (d : Directory) (path : String) : Except IoError Place := do
  d.source (← parsePath path)

/-- Paths that lead to one place lead to one file. -/
theorem readFile_congr {path path' : String} (h : d.placeOf path' = d.placeOf path) :
    d.readFile path' = d.readFile path := by
  have hbytes : d.bytesAt path' = d.bytesAt path := by
    unfold placeOf at h
    unfold bytesAt
    rw [← bind_assoc, ← bind_assoc, h]
  rw [readFile, readFile, hbytes]

end Directory

/-! ## Module files -/

/-- A module that was written is read back. -/
theorem Module.read_of_write {m : Module} {sink : Sink} (h : m.write {} = .ok () sink) :
    ∃ rest, read (Source.ofBytes sink.written) = .ok m rest := by
  have hfill : Sink.fill m.write none = (.ok (), sink.written) := by
    rw [Sink.fill, h]
  exact ⟨_, read_of_fill hfill⟩

namespace Command

variable {d d' : Directory} {m : Module}

theorem saveModule_cases {path : String} (h : saveModule path m d = .ok () d') :
    ∃ sink, m.write {} = .ok () sink ∧ d'.readFile path = .ok sink.written := by
  obtain ⟨⟨⟩, after, -, h⟩ := Action.bind_eq_ok_iff.1 h
  cases hwrite : m.write {} with
  | ok u sink =>
    rw [hwrite] at h
    exact ⟨sink, rfl, Directory.readFile_of_writeFile h⟩
  | error e sink =>
    rw [hwrite] at h
    obtain ⟨⟨⟩, _, -, h⟩ := Action.bind_eq_ok_iff.1 h
    cases h

/-- A file that was assembled is a module file. -/
theorem assembleFile_cases {source target : String} (h : assembleFile source target d = .ok () d') :
    ∃ text m, readSource d source = .ok text ∧ assemble text = .ok m ∧
      loadModule d' target = .ok m := by
  obtain ⟨d₁, d₂, hget, h₁⟩ := Action.bind_eq_ok_iff.1 h
  obtain ⟨rfl, rfl⟩ : d₁ = d ∧ d₂ = d := by
    cases hget
    exact ⟨rfl, rfl⟩
  obtain ⟨text, d₃, hread, h₂⟩ := Action.bind_eq_ok_iff.1 h₁
  obtain ⟨htext, rfl⟩ := Action.ofExcept_eq_ok_iff.1 hread
  obtain ⟨m, d₄, hassemble, h₃⟩ := Action.bind_eq_ok_iff.1 h₂
  obtain ⟨hm, rfl⟩ := Action.ofExcept_eq_ok_iff.1 hassemble
  obtain ⟨sink, hwrite, hfile⟩ := saveModule_cases h₃
  obtain ⟨rest, hread⟩ := Module.read_of_write hwrite
  refine ⟨text, m, htext, hm, ?_⟩
  simp only [loadModule, hfile, bind, Except.bind, hread]

theorem loadModule_congr {path path' : String} (h : d.placeOf path' = d.placeOf path) :
    loadModule d path' = loadModule d path := by
  rw [loadModule, loadModule, Directory.readFile_congr h]

/-! ## Runs -/

/-- How the run ends that a command is asked for. -/
def RunOptions.finish (o : RunOptions) (m : Module) : Host.Finish :=
  Host.finish m o.start (.create o.capacity o.stepLimit {})

def exitCodeOf : Except Error (Option Outcome) → Nat
  | .ok _ => 0
  | .error (.missingStart _) => 2
  | .error _ => 4

/-- A report shows the output of a run, and its exit code tells how the run ended. -/
structure Shows (r : Report) (finish : Host.Finish) : Prop where
  stdout_eq : r.stdout = finish.output.written
  exitCode_eq : r.exitCode = exitCodeOf finish.result

theorem exitCodeOf_ne_three (result : Except Error (Option Outcome)) : exitCodeOf result ≠ 3 := by
  unfold exitCodeOf
  split <;> decide

theorem exitCodeOf_error {e : Error} (h : ∀ symbol, e ≠ .missingStart symbol) :
    exitCodeOf (.error e) = 4 := by
  unfold exitCodeOf
  split
  · next heq => cases heq
  · next symbol heq =>
    cases heq
    exact absurd rfl (h symbol)
  · rfl

/-- A program that runs does not look for a symbol to start at. -/
theorem exitCodeOf_step {p : Processor} {h : Host} (hp : p.Consistent m) {e : Error}
    {after : Processor × Host} (hstep : Host.step m (p, h) = .error e after) :
    exitCodeOf (.error e) = 4 := by
  refine exitCodeOf_error fun symbol hsymbol => ?_
  subst hsymbol
  cases Host.stepsTo_of_eq hstep with
  | failed _ hrun hfailed =>
    obtain ⟨failure, hfailure⟩ := Processor.failure_of_step_error hp.holds hrun hfailed
    cases hfailure
  | refused _ _ _ _ _ _ hserve => exact Host.isServiceError_of_serve hserve

theorem shows_of_start {o : RunOptions} (htrace : o.trace = false) {p : Processor} {g : Host}
    (hstart : Host.start m o.start (.create o.capacity o.stepLimit {}) = .ok p g)
    (hends : (o.finish m).result ≠ .ok none) : Shows (runModule o m) (o.finish m) := by
  rcases Action.repeats_or_ends (Host.step m) (p, g) g.patience with
    ⟨t, hrepeats⟩ | ⟨n, r, hn, hr⟩
  · have huntil := Action.untilSome_of_repeats hrepeats 0
    have hrun : Host.run m o.start (.create o.capacity o.stepLimit {}) = .ok none t.2 := by
      simp only [Host.run, hstart]
      rw [← Nat.add_zero g.patience, huntil]
      rfl
    exact absurd (by rw [RunOptions.finish, Host.finish_of_ok hrun]) hends
  · have hrun := Host.run_of_ends hstart hr hn
    have huntil := Action.untilSome_of_ends hr hn
    unfold RunOptions.finish at hends ⊢
    cases r with
    | ok outcome t =>
      rw [Host.finish_of_ok hrun] at hends ⊢
      cases outcome with
      | none => exact absurd rfl hends
      | some outcome =>
        constructor <;> simp [runModule, hstart, htrace, huntil, exitCodeOf]
    | error e t =>
      obtain ⟨-, u, hrepeats, hstep⟩ := hr
      have hconsistent := (Host.of_repeats hrepeats).2.2 (Host.running_of_start hstart).1
      have hcode := exitCodeOf_step hconsistent hstep
      rw [Host.finish_of_error hrun]
      constructor <;> simp [runModule, hstart, htrace, huntil, faultReport, hcode]

/-- An assembled module is run as a command as it is run by its host. -/
theorem shows_runModule {source : String} (hm : assemble source = .ok m) {o : RunOptions}
    (htrace : o.trace = false) (hends : (o.finish m).result ≠ .ok none) :
    Shows (runModule o m) (o.finish m) := by
  rcases Host.entry_cases hm o.start with ⟨position, hle, hentry⟩ | ⟨name, -, -, hentry⟩
  · obtain ⟨p, hstart, -⟩ :=
      Host.start_of_entry (.create o.capacity o.stepLimit {}) hentry hle
    exact shows_of_start htrace hstart hends
  · have hstart := Host.start_of_entry_error (.create o.capacity o.stepLimit {}) hentry
    rw [RunOptions.finish, Host.finish_of_error (Host.run_of_start_error hstart)]
    simp only [runModule, hstart]
    exact ⟨rfl, rfl⟩

/-! ## Command lines -/

/-- The command that assembles succeeds only if it leaves a module file. -/
theorem vasm_cases {args : List String} {a : Arguments} {source target : String}
    (hargs : parseArguments assembleForm args = .ok a) (hfiles : a.positionals = [source, target])
    {r : Report} (h : execute d ("vasm" :: args) = (r, d')) (hcode : r.exitCode = 0) :
    assembleFile source target d = .ok () d' := by
  simp only [execute, vasm, hargs, hfiles] at h
  split at h
  · next after hfile =>
    cases h
    exact hfile
  · cases h
    cases hcode

theorem vrun_eq {args : List String} {a : Arguments} {file : String}
    (hargs : parseArguments runForm args = .ok a) (hfile : a.positionals = [file]) :
    (execute d ("vrun" :: args)).1 = runFile d (.ofArguments file a) := by
  simp only [execute, vrun, hargs, hfile]

/-- Assembling a file and running what was made of it is the same as running the assembled module.
After a command line that assembles has succeeded, a command line that runs the file it wrote, by
whatever path, without a trace, and with whatever symbol to start at, capacity and step limit,
prints what the program writes in a run that ends. Its exit code tells how that run ended: 2 if the
module does not export the symbol, 4 after any other error, and never that the file is no module. -/
theorem pipeline_shows_run {args : List String} {a : Arguments} {source target : String}
    (hargs : parseArguments assembleForm args = .ok a) (hfiles : a.positionals = [source, target])
    {r : Report} (h : execute d ("vasm" :: args) = (r, d')) (hcode : r.exitCode = 0) :
    ∃ text m, readSource d source = .ok text ∧ assemble text = .ok m ∧
      ∀ args' a' file, parseArguments runForm args' = .ok a' → a'.positionals = [file] →
        d'.placeOf file = d'.placeOf target →
        (RunOptions.ofArguments file a').trace = false →
        ((RunOptions.ofArguments file a').finish m).result ≠ .ok none →
        Shows (execute d' ("vrun" :: args')).1 ((RunOptions.ofArguments file a').finish m) ∧
          (execute d' ("vrun" :: args')).1.exitCode ≠ 3 := by
  obtain ⟨text, m, htext, hm, hload⟩ := assembleFile_cases (vasm_cases hargs hfiles h hcode)
  refine ⟨text, m, htext, hm, fun args' a' file hargs' hfile hplace htrace hends => ?_⟩
  have hloaded : loadModule d' file = .ok m := (loadModule_congr hplace).trans hload
  have hreport : (execute d' ("vrun" :: args')).1 = runModule (.ofArguments file a') m := by
    rw [vrun_eq hargs' hfile, runFile, RunOptions.ofArguments, hloaded]
  have hshows := shows_runModule hm htrace hends
  rw [hreport]
  exact ⟨hshows, hshows.exitCode_eq ▸ exitCodeOf_ne_three _⟩

def letterSource : String :=
  ".export go\ngo: PUSH.B 65\nOUT.B\nEXIT\n"

def letterFiles : Directory :=
  [(⟨.above 0, ["letter.s"]⟩, .file (Utf8.encode letterSource))]

def letterAssembled : Report × Directory :=
  execute letterFiles ["vasm", "letter.s", "letter"]

def letterRun : Report :=
  (execute letterAssembled.2 ["vrun", "--start=go", "--max-steps", "9", "./letter"]).1

theorem pipeline_shows_run_letter :
    letterAssembled.1.exitCode = 0 ∧ ∃ m, assemble letterSource = .ok m ∧
      Shows letterRun (Host.finish m (some "go") (.create 256 (some 9) {})) ∧
      letterRun.exitCode ≠ 3 := by
  have hargs : parseArguments assembleForm ["letter.s", "letter"] =
      .ok ⟨[], ["letter.s", "letter"]⟩ := by decide +kernel
  have hcode : letterAssembled.1.exitCode = 0 := by decide +kernel
  have hread : readSource letterFiles "letter.s" = .ok letterSource := by decide +kernel
  obtain ⟨text, m, htext, hm, hruns⟩ :=
    pipeline_shows_run hargs rfl (Prod.eta letterAssembled).symm hcode
  rw [hread] at htext
  cases htext
  have hargs' : parseArguments runForm ["--start=go", "--max-steps", "9", "./letter"] =
      .ok ⟨[("max-steps", "9"), ("start", "go")], ["./letter"]⟩ := by decide +kernel
  have hplace : letterAssembled.2.placeOf "./letter" = letterAssembled.2.placeOf "letter" := by
    decide +kernel
  have hoptions : RunOptions.ofArguments "./letter"
      ⟨[("max-steps", "9"), ("start", "go")], ["./letter"]⟩ =
        ⟨"./letter", some "go", false, 256, some 9⟩ := by decide +kernel
  have hrun := hruns _ _ "./letter" hargs' rfl hplace (by rw [hoptions])
  rw [hoptions] at hrun
  exact ⟨hcode, m, hm, hrun (Host.result_ne_none rfl)⟩

end Command

end ByteMachine
