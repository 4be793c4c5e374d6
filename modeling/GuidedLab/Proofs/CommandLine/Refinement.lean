import GuidedLab.Proofs.CommandLine.Started

/-!
# Separate runs of the program and one session

A learner who answers, ticks and turns pages with one command after the other works as if in one session:
each run of the program opens the session where the last one left it, since nothing of it is lost on disk
(`exists_step`). So commands one process at a time end as they would in one session, and leave the disk that
saving that session leaves (`separate_runs_refine_session`).
-/

namespace GuidedLab.CommandLine

open Session (Settled Kept IsResumed)

variable {run name text : String} {s t : Session} {d e base : Disk} {c : Command} {now : Moment}
  {arguments : List String}

/-! ### Commands in an open session -/

/-- The commands that work on a run by looking at it, answering, ticking or selecting a page. -/
inductive Command.WorksOn (run : String) : Command → Prop where
  | status : WorksOn run (.status run)
  | answer (component text : String) : WorksOn run (.answer run component text)
  | tick (component : String) (ticked : Bool) : WorksOn run (.tick run component ticked)
  | goTo (page : Nat) : WorksOn run (.goTo run page)

/-- What a command changes in a session that is open. -/
def change : Command → Session → Job Session
  | .answer _ component text, s => interactWith component (.answer text) s
  | .tick _ component ticked, s => interactWith component (.check ticked) s
  | .goTo _ page, s => Job.ofAnswer (s.goTo page)
  | _, s => pure s

/-- What a command leaves behind with the session that it has led to. -/
def shown : Command → Session → Nat × List String
  | .status _, s => (if s.isComplete then completeCode else doneCode, statusLines s)
  | _, s => (doneCode, statusLines s)

/-- A command in a session that stays open. One that is refused leaves the session. -/
def perform (c : Command) (s : Session) (d : Disk) : Ending × Session × Disk :=
  match (change c s).run d with
  | (.ok t, d) => (.ofAnswer (.ok (shown c t)), t, d)
  | (.error f, d) => (.ofAnswer (.error f), s, d)

/-- Commands one after the other in one session. -/
def inOneSession (s : Session) (d : Disk) : List Command → List Ending × Session × Disk
  | [] => ([], s, d)
  | c :: rest =>
    let (ending, t, d) := perform c s d
    let (endings, u, d) := inOneSession t d rest
    (ending :: endings, u, d)

/-- Runs of the program one after the other. -/
def inSeparateRuns (d : Disk) : List (Moment × List String) → List Ending × Disk
  | [] => ([], d)
  | (now, arguments) :: rest =>
    let (ending, d) := (CommandLine.run now arguments).run d
    let (endings, d) := inSeparateRuns d rest
    (ending :: endings, d)

/-- An interaction by a name path that records nothing and leaves the optional flags is refused, or leads to
a session between two runs. The disk plays no part in it. -/
theorem interactWith_cases {config : Config} {folder : Path}
    (h : s.IsResumed config folder name text) (component : String) {i : Interaction}
    (record : Session.records i = false) (optional : ∀ flag, i ≠ .optional flag) :
    (∃ f, ∀ d, (interactWith component i s).run d = (.error f, d)) ∨
    ∃ t, (∀ d, (interactWith component i s).run d = (.ok t, d)) ∧
      t.IsResumed config folder name text := by
  cases hresolve : s.script.tree.resolve? component with
  | none =>
      refine Or.inl ⟨.ofRule s!"no component named {component}", fun d => ?_⟩
      rw [interactWith, resolve, hresolve, Job.require_none_bind]
      rfl
  | some a =>
      have hrun : ∀ d, (interactWith component i s).run d =
          (((s.interact a i d).1.2).map fun _ => (s.interact a i d).1.1, (s.interact a i d).2) := by
        intro d
        rw [interactWith, resolve, hresolve, Job.require_some_bind]
        rfl
      rcases h.interact a record optional with ⟨f, u, hi⟩ | ⟨t, changes, hi, ht⟩
      · refine Or.inl ⟨f, fun d => ?_⟩
        rw [hrun, hi]
        rfl
      · refine Or.inr ⟨t, fun d => ?_, ht⟩
        rw [hrun, hi]
        rfl

/-- What a command changes in a session between two runs: it is refused, or it leads to such a session. -/
theorem change_cases {config : Config} {folder : Path} (h : s.IsResumed config folder name text)
    (works : c.WorksOn run) :
    (∃ f, ∀ d, (change c s).run d = (.error f, d)) ∨
    ∃ t, (∀ d, (change c s).run d = (.ok t, d)) ∧ t.IsResumed config folder name text := by
  cases works with
  | status => exact Or.inr ⟨s, fun _ => rfl, h⟩
  | answer component text => exact interactWith_cases h component rfl nofun
  | tick component ticked => exact interactWith_cases h component rfl nofun
  | goTo page =>
      cases hgo : s.goTo page with
      | error f => exact Or.inl ⟨f, fun d => by rw [change, hgo]; rfl⟩
      | ok t => exact Or.inr ⟨t, fun d => by rw [change, hgo]; rfl, h.goTo hgo⟩

/-! ### One run of the program -/

/-- Looking at a run shows its session and changes nothing. -/
theorem run_status (h : (openRun .standard run).run d = (.ok s, d)) :
    (execute .standard now (.status run)).run d = (.ok (shown (.status run) s), d) := by
  rw [execute, Job.run_bind, h]
  rfl

/-- A run that is changed is resumed, changed and saved. -/
theorem run_updateRun (h : (openRun .standard run).run d = (.ok s, d))
    {work : Session → Job Session} :
    (∀ f, (work s).run d = (.error f, d) → (updateRun .standard run work).run d = (.error f, d)) ∧
    (∀ t, (work s).run d = (.ok t, d) → t.save.run d = (.ok (), e) →
      (updateRun .standard run work).run d = (.ok (doneCode, statusLines t), e)) := by
  constructor
  · intro f hwork
    rw [updateRun, Job.run_bind, h]
    dsimp only
    rw [Job.run_bind, hwork]
  · intro t hwork hsave
    rw [updateRun, Job.run_bind, h]
    dsimp only
    rw [Job.run_bind, hwork]
    dsimp only
    rw [Job.run_bind, hsave]
    rfl

/-- One run of the program does what the command does in the open session, and leaves the run to rest. -/
theorem exists_step (now : Moment) (ground : IsRunOf run name text) (standard : IsStandard d)
    (h : Settled .standard (runFolder run) name text base s d) (works : c.WorksOn run)
    (asked : Request.ofArguments arguments = .command none c) :
    ∃ ending t e, (∀ x, perform c s x = (ending, t, x)) ∧
      (CommandLine.run now arguments).run d = (ending, e) ∧
      Settled .standard (runFolder run) name text base t e ∧ IsStandard e := by
  have hopen : (openRun .standard run).run d = (.ok s, d) :=
    (openRun_eq h.kept).trans (h.kept.resume_eq ground.fits h.resumed)
  rw [run_eq standard asked]
  by_cases hstatus : c = .status run
  · subst hstatus
    rw [run_status hopen]
    exact ⟨_, s, d, fun _ => rfl, rfl, h, standard⟩
  · have hexecute : execute .standard now c = updateRun .standard run (change c) ∧
        ∀ t, shown c t = (doneCode, statusLines t) := by
      cases works with
      | status => exact absurd rfl hstatus
      | answer component text => exact ⟨rfl, fun _ => rfl⟩
      | tick component ticked => exact ⟨rfl, fun _ => rfl⟩
      | goTo page => exact ⟨rfl, fun _ => rfl⟩
    rw [hexecute.1]
    rcases change_cases h.resumed works with ⟨f, hf⟩ | ⟨t, ht, hresumed⟩
    · rw [(run_updateRun (e := d) hopen).1 f (hf d)]
      refine ⟨_, s, d, fun x => ?_, rfl, h, standard⟩
      rw [perform, hf]
    · obtain ⟨e, hsave, hbelow, hsettled⟩ := h.exists_save (Config.names_of_validate rfl)
        (Path.trimmed_child _ ground.plain) ground.room ground.state ground.draft hresumed
      rw [(run_updateRun hopen).2 t (ht d) hsave]
      refine ⟨_, t, e, fun x => ?_, rfl, hsettled, standard.of_changesBelow ground.plain hbelow⟩
      rw [perform, ht]
      dsimp only
      rw [hexecute.2]

/-! ### Many runs of the program -/

/-- Runs of the program end as the commands do in one session, and leave the run to rest. -/
theorem exists_run (ground : IsRunOf run name text) {runs : List (Moment × List String)}
    {commands : List Command} (standard : IsStandard d)
    (h : Settled .standard (runFolder run) name text base s d)
    (accepted : runs.map (fun r => Request.ofArguments r.2) = commands.map (Request.command none))
    (works : ∀ c ∈ commands, c.WorksOn run) :
    ∃ endings t e, (∀ x, inOneSession s x commands = (endings, t, x)) ∧
      inSeparateRuns d runs = (endings, e) ∧
      Settled .standard (runFolder run) name text base t e := by
  induction runs generalizing s d commands with
  | nil =>
      cases commands with
      | nil => exact ⟨[], s, d, fun _ => rfl, rfl, h⟩
      | cons c rest => cases accepted
  | cons r runs ih =>
      cases commands with
      | nil => cases accepted
      | cons c rest =>
          rw [List.map_cons, List.map_cons, List.cons.injEq] at accepted
          obtain ⟨ending, t, e, hperform, hrun, hsettled, hstandard⟩ :=
            exists_step r.1 ground standard h (works c List.mem_cons_self) accepted.1
          obtain ⟨endings, u, e', hone, hseparate, hrest⟩ := ih hstandard hsettled accepted.2
            fun c hc => works c (List.mem_cons_of_mem _ hc)
          refine ⟨ending :: endings, u, e', fun x => ?_, ?_, hrest⟩
          · rw [inOneSession, hperform]
            dsimp only
            rw [hone]
          · rw [inSeparateRuns, hrun]
            dsimp only
            rw [hseparate]

/-- Commands one process at a time refine one session. A script is started with the standard configuration;
its file is not named as the state or its draft and no larger than a memory can be. On the run that was
created commands look, answer, tick and select pages. Each as a run of the program of its own, they end as
they do in one session that is opened once and in which those that are refused leave everything as it was.
In the end that session can be saved, and the disk is then the same as after the separate runs, the state
included; and from either disk the program opens that very session, with its chain, its page, its states and
what is complete. -/
theorem separate_runs_refine_session {script : Path} {d₀ d₁ : Disk}
    (there : d₀.find? d₀.working = some .folder)
    (standard : (Config.load (configPath none)).run d₀ = (.ok .standard, d₀))
    (asked : Request.ofArguments arguments = .command none (.start script))
    (started : (CommandLine.run now arguments).run d₀ = (.shown doneCode [run], d₁))
    (apart : ∀ name, script.fileName? = some name →
      name ≠ Config.standard.state ∧ name ≠ Config.standard.state ++ Job.draftEnding)
    (fits : ∀ content, d₀.find? (script.positionFrom d₀.working) = some (.file content) →
      content.size < memoryLimit)
    {runs : List (Moment × List String)} {commands : List Command}
    (accepted : runs.map (fun r => Request.ofArguments r.2) = commands.map (Request.command none))
    (works : ∀ c ∈ commands, c.WorksOn run) :
    ∃ s endings t d e, (openRun .standard run).run d₁ = (.ok s, d₁) ∧
      inSeparateRuns d₁ runs = (endings, d) ∧ inOneSession s d₁ commands = (endings, t, d₁) ∧
      t.save.run d₁ = (.ok (), e) ∧ (∀ q, d.find? q = e.find? q) ∧
      (openRun .standard run).run d = (.ok t, d) ∧ (openRun .standard run).run e = (.ok t, e) := by
  obtain ⟨name, text, s, ground, hstandard, hopen, hsettled⟩ :=
    exists_settled_of_started ⟨there, standard⟩ asked started apart fits
  obtain ⟨endings, t, d, hone, hseparate, hrest⟩ :=
    exists_run ground hstandard hsettled accepted works
  obtain ⟨e, hsave, -, hsaved⟩ := hsettled.exists_save (Config.names_of_validate rfl)
    (Path.trimmed_child _ ground.plain) ground.room ground.state ground.draft hrest.resumed
  obtain ⟨a, -, -, ha, -⟩ := hrest.kept.works.exists_archive
  refine ⟨s, endings, t, d, e, hopen, hseparate, hone d₁, hsave,
    (hrest.files a ha).find?_eq (hsaved.files a ha), ?_, ?_⟩
  · exact (openRun_eq hrest.kept).trans (hrest.kept.resume_eq ground.fits hrest.resumed)
  · exact (openRun_eq hsaved.kept).trans (hsaved.kept.resume_eq ground.fits hsaved.resumed)

/-- A moment on a day in May. -/
def mayMorning : Moment := ⟨2014, 5, 1, 10, 15, 30⟩

/-- The name of the run of the script of `twoPages` that is started then. -/
def fallRun : String := "2014-05-01_10-15-30_fall"

/-- What the start leaves behind. -/
def fallCreated : Ending × Disk :=
  (CommandLine.run mayMorning ["start", "fall.json"]).run Session.twoPages

/-- A box is ticked, the second page is selected and then one that is not there, and the run is looked at. -/
def fallCommands : List Command :=
  [.tick fallRun "held" true, .goTo fallRun 1, .goTo fallRun 7, .status fallRun]

theorem separate_runs_refine_session_fall :
    let runs := [["tick", fallRun, "held"], ["goto", fallRun, "1"], ["goto", fallRun, "7"],
      ["status", fallRun]].map fun arguments => (mayMorning, arguments)
    ∃ s t e, (openRun .standard fallRun).run fallCreated.2 = (.ok s, fallCreated.2) ∧
      (inOneSession s fallCreated.2 fallCommands).2.1 = t ∧
      (inSeparateRuns fallCreated.2 runs).1 = (inOneSession s fallCreated.2 fallCommands).1 ∧
      t.save.run fallCreated.2 = (.ok (), e) ∧
      ∀ q, (inSeparateRuns fallCreated.2 runs).2.find? q = e.find? q := by
  intro runs
  have hshown : fallCreated.1 = .shown doneCode [fallRun] := by decide +kernel
  have hstarted : (CommandLine.run mayMorning ["start", "fall.json"]).run Session.twoPages =
      (.shown doneCode [fallRun], fallCreated.2) := by
    rw [← hshown]
    exact (Prod.eta fallCreated).symm
  have hworks : ∀ c ∈ fallCommands, c.WorksOn fallRun := by
    simp only [fallCommands, List.forall_mem_cons]
    exact ⟨.tick _ _, .goTo _, .goTo _, .status, nofun⟩
  have hapart : ∀ name, (⟨"fall.json"⟩ : Path).fileName? = some name →
      name ≠ Config.standard.state ∧ name ≠ Config.standard.state ++ Job.draftEnding := by
    intro name hname
    have hfall : (⟨"fall.json"⟩ : Path).fileName? = some "fall.json" := by decide
    rw [hfall] at hname
    cases hname
    decide
  have haccepted : runs.map (fun r => Request.ofArguments r.2) =
      fallCommands.map (Request.command none) := by decide +kernel
  obtain ⟨s, endings, t, d, e, hopen, hseparate, hone, hsave, hsame, -⟩ :=
    separate_runs_refine_session (by rfl) (Config.run_load_of_not_isThere (by decide +kernel))
      (by decide +kernel) hstarted hapart Session.size_fall haccepted hworks
  refine ⟨s, t, e, hopen, ?_, ?_, hsave, ?_⟩
  · rw [hone]
  · rw [hone, hseparate]
  · rw [hseparate]
    exact hsame

end GuidedLab.CommandLine
