import GuidedLab.Run.Name
import GuidedLab.Session.Basic

/-!
# Recordings

An experiment is recorded by copying a file into a new folder below the experiments of the run and
giving the folder's path to the component. A recording that is replaced by one at another path is
deleted, but only if it lies below the folder of the run.

What happens to the session and what happens on disk are answered together: a fault of the script
leaves its words in the script, and a failure on the way leaves what was done on disk.
-/

namespace GuidedLab.Session

/-- The path recorded for the component at an address, if it is an experiment that has one. -/
def recording? (s : Session) (a : Address) : Option RawPath :=
  (s.script.tree.at? a).bind fun
    | .leaf _ _ (.experiment e) => e.path
    | _ => none

/-- The disk without what lies at a path below the folder of a run. Names on a disk are texts, so nothing
lies at a path that is not written as one. -/
def withoutRecording (folder : Path) (recording : RawPath) (d : Disk) : Disk :=
  match recording.toPath?.bind fun p => d.position? (folder.join p), d.position? folder with
  | some position, some above =>
    if above.isPrefixOf position && above ≠ position then
      d.change position.dropLast (Folder.erase (position.getLast?.getD ""))
    else d
  | _, _ => d

/-- Whether an interaction records an experiment. -/
def records : Interaction → Bool
  | .record _ => true
  | _ => false

/-- The disk after an interaction: a recording that is replaced by another one is gone. -/
def afterwards (before after : Session) (a : Address) (i : Interaction) (d : Disk) : Disk :=
  match before.recording? a with
  | none => d
  | some old =>
    if records i && !(after.recording? a).any (RawPath.sameSteps old) then
      withoutRecording before.layout.folder old d
    else d

/-- The session after an interaction with the component at an address, and the changes. -/
def interact (s : Session) (a : Address) (i : Interaction) :
    StateM Disk (Session × Except Failure (List Tree.Change)) := fun d =>
  match s.script.interact a i with
  | (script, .error f) => (({ s with script }, .error (.of (.fault f))), d)
  | (script, .ok changes) =>
    let after := s.following script changes
    ((after, .ok changes), afterwards s after a i d)

/-- A file is copied into a new folder for the experiment at an address. The path of the folder is
seen from the folder of the run. -/
def copyRecording (s : Session) (a : Address) (source : Path) (now : Moment) : Job Path := do
  let c ← Job.require s!"unknown component {a.text}" (s.script.tree.at? a)
  match c with
  | .leaf _ _ (.experiment _) => pure ()
  | c => Job.refuse s!"component \"{c.name}\" is not an experiment"
  let file ← Job.require s!"experiment source {source.text} has no file name" source.fileName?
  let folder := s.layout.experiments.child (Run.nameAt now c.name)
  if ← Job.ask fun d => d.isThere folder then
    Job.changeInPart s!"clear directory {folder.text}" fun d => d.removeAll folder
  Job.changeInPart s!"create directory {folder.text}" fun d => d.makeAll folder
  let target := folder.child file
  Job.change s!"copy experiment {source.text} to {target.text}" fun d => d.copy source target
  Job.require s!"{folder.text} is outside the run directory" (s.layout.relative? folder)

/-- The session after recording a file for the experiment at an address, and the changes. -/
def record (s : Session) (a : Address) (source : Path) (now : Moment) :
    StateM Disk (Session × Except Failure (List Tree.Change)) := do
  match ← (s.copyRecording a source now).run with
  | .error f => return (s, .error f)
  | .ok folder => s.interact a (.record (.ofPath folder))

end GuidedLab.Session
