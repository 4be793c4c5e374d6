import GuidedLab.CommandLine.Arguments
import GuidedLab.Config.File
import GuidedLab.Run.Folders
import GuidedLab.Session.Recording
import GuidedLab.Tree.NamePath

/-!
# Commands

A command works on one run or on all. A command that changes a run resumes it from its folder, makes
the change, saves it and shows where the learner is; a change that is refused is not saved. What a
command shows are lines.
-/

namespace GuidedLab.CommandLine

/-- The exit code of a command that did its work. -/
def doneCode : Nat := 0

/-- The exit code of a command that failed. -/
def failedCode : Nat := 1

/-- The exit code of a command that found a saved state of another structure, or of arguments that
are rejected. -/
def incompatibleCode : Nat := 2

/-- The exit code of a look at a run in which nothing is left to do. -/
def completeCode : Nat := 3

/-- The name of the program and its version. -/
def versionLine : String := "lablet 0.1.0"

/-- What the program leaves behind: an exit code and what is shown, or that its arguments are
rejected, that help is asked for, or that it failed. -/
inductive Ending where
  | shown (code : Nat) (lines : List String)
  | help
  | rejected
  | failed (f : Failure)
deriving DecidableEq, Repr

/-- The exit code of an ending. -/
def Ending.code : Ending → Nat
  | .shown code _ => code
  | .help => doneCode
  | .rejected => incompatibleCode
  | .failed f => if f.isIncompatible then incompatibleCode else failedCode

/-- The line of a page: whether it is selected, its place, name and state. -/
def pageLine (s : Session) (place node : Nat) : String :=
  let mark := if place = s.bookmark.current then ">" else " "
  let tree := s.script.tree
  let name := (tree.namePath? (.ofNode node)).getD ""
  let state := ((tree.component? node).map fun c => c.state.text).getD ""
  s!"{mark} {place + 1}. {name} [{state}]"

/-- Where the learner is: the title, a line for each page, and whether nothing is left to do. -/
def statusLines (s : Session) : List String :=
  s.script.title :: (s.bookmark.chain.mapIdx (pageLine s) ++
    if s.isComplete then ["complete"] else [])

/-- The line of a run. -/
def runLine (r : Run.Entry) : String :=
  match r.started, r.seed with
  | some m, some seed => r.name ++ "\t" ++ m.text ++ "\t" ++ seed
  | some m, none => r.name ++ "\t" ++ m.text
  | none, _ => r.name

/-- The session of a run. -/
def openRun (c : Config) (run : String) : Job Session := do
  let runs : Path := ⟨c.runs⟩
  let folder := runs.child run
  if ← Job.ask fun d => d.isFolder folder then Session.resume c folder
  else Job.refuse s!"no run named {run} in {runs.text}"

/-- The address of a component by its name path. -/
def resolve (s : Session) (component : String) : Job Address :=
  Job.require s!"no component named {component}" (s.script.tree.resolve? component)

/-- A change of a session that answers the session and its changes, as a job for the session. -/
def changed (change : StateM Disk (Session × Except Failure (List Tree.Change))) :
    Job Session := fun d =>
  let ((s, r), d) := change.run d
  (r.map fun _ => s, d)

/-- A run is resumed, changed and saved, and shown as it is then. -/
def updateRun (c : Config) (run : String) (change : Session → Job Session) :
    Job (Nat × List String) := do
  let s ← openRun c run
  let s ← change s
  s.save
  return (doneCode, statusLines s)

/-- An interaction with a component that is given by its name path. -/
def interactWith (component : String) (i : Interaction) (s : Session) : Job Session := do
  let a ← resolve s component
  changed (s.interact a i)

/-- A new run of a script, by its name. If the script cannot be started or saved the run is deleted
again. -/
def startRun (c : Config) (now : Moment) (script : Path) : Job String := do
  let runs : Path := ⟨c.runs⟩
  let folder ← Run.createAt runs now (script.fileStem?.getD "")
  let name := folder.fileName?.getD ""
  let started ← Job.attempt do
    let s ← Session.start c script folder
    s.save
  match started with
  | .ok _ => return name
  | .error f =>
    Job.within "remove failed run" (Run.delete runs name)
    Job.ofAnswer (.error f)

/-- A command with a configuration at a moment: the exit code and what is shown. -/
def execute (c : Config) (now : Moment) : Command → Job (Nat × List String)
  | .validate script => do
    let s ← Source.loadChecked script
    return (doneCode, [s!"{s.title}: {s.tree.size} component(s) ok"])
  | .start script => do
    let name ← startRun c now script
    return (doneCode, [name])
  | .status run => do
    let s ← openRun c run
    return (if s.isComplete then completeCode else doneCode, statusLines s)
  | .answer run component text => updateRun c run (interactWith component (.answer text))
  | .tick run component ticked => updateRun c run (interactWith component (.check ticked))
  | .record run component file =>
    updateRun c run fun s => do
      let a ← resolve s component
      changed (s.record a file now)
  | .goTo run page => updateRun c run fun s => Job.ofAnswer (s.goTo page)
  | .export run => do
    let s ← openRun c run
    let p ← s.writeReport
    return (doneCode, [p.text])
  | .runs => do
    let runs ← Run.list ⟨c.runs⟩
    return (doneCode, runs.map runLine)
  | .delete run => do
    Run.delete ⟨c.runs⟩ run
    return (doneCode, [])

/-- The path of the configuration. -/
def configPath (config : Option Path) : Path := config.getD ⟨Config.fileName⟩

/-- The paths that the program works on, as far as the disk tells: what the arguments name, and the
folder of all runs if there is a configuration that names one. -/
def reach (arguments : List String) : StateM Disk (List Path) := do
  match Request.ofArguments arguments with
  | .command config command =>
    match ← (Config.load (configPath config)).run with
    | .ok c => return configPath config :: ⟨c.runs⟩ :: command.files
    | .error _ => return [configPath config]
  | _ => return []

/-- The program with its arguments at a moment. -/
def run (now : Moment) (arguments : List String) : StateM Disk Ending := do
  match Request.ofArguments arguments with
  | .rejected => return .rejected
  | .help => return .help
  | .version => return .shown doneCode [versionLine]
  | .command config command =>
    let job : Job (Nat × List String) := do
      let c ← Config.load (configPath config)
      execute c now command
    match ← job.run with
    | .ok (code, lines) => return .shown code lines
    | .error f => return .failed f

end GuidedLab.CommandLine
