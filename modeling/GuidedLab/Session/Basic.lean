import GuidedLab.Report
import GuidedLab.Run.Layout
import GuidedLab.Run.StateFile
import GuidedLab.Session.Bookmark
import GuidedLab.Source.File

/-!
# Sessions

A session is the work of a learner on one run: the script at its present state, the layout of the
run's folder, and a bookmark that follows the script. The session is the listener of its script, so
the bookmark is refreshed with every change that is delivered.

A session is started in a folder of its own, which is taken away again if it was made for a script
that cannot be started. It is saved into the folder as a copy of the script and a state file, and
resumed from these two.
-/

namespace GuidedLab

/-- The work of a learner on one run. -/
structure Session where
  script : Script
  layout : Run.Layout
  /-- The script's file when the session was opened. -/
  source : Path
  /-- The name of the script's file. -/
  name : String
  bookmark : Bookmark
deriving DecidableEq

namespace Session

/-- The key of the script's name in a state file. -/
def nameKey : String := "script_name"

/-- The key of the selected place in a state file. -/
def placeKey : String := "current_fragment"

/-- The session of a script in the folder of a run, at no page yet. -/
def attached (c : Config) (script : Script) (folder source : Path) (name : String) : Session :=
  let (script, _) := { script with directory := some folder }.subscribe
  ⟨script, Run.Layout.of c folder, source, name, .empty⟩

/-- The session with its bookmark in step with the tree. -/
def refreshed (s : Session) : Session :=
  { s with bookmark := s.bookmark.refreshed s.script.tree }

/-- The session with a place of the chain selected. -/
def movedTo (s : Session) (place : Nat) : Session :=
  { s with bookmark := s.bookmark.moved place }

/-- The session after an operation of its script, and after what was delivered of the changes. -/
def following (s : Session) (script : Script) (changes : List Tree.Change) : Session :=
  { s with
    script
    bookmark := (script.deliveries changes).foldl (fun b d => b.refreshed d.tree) s.bookmark }

/-- The session at the start of a script. -/
def atStart (s : Session) : Session :=
  let (script, changes) := s.script.start
  (s.following script (changes.getD [])).refreshed.movedTo 0

/-- The session of a script that has not been worked on yet. -/
def openNew (c : Config) (source folder : Path) : Job Session := do
  let name ← Job.require s!"script path {source.text} has no file name" source.fileName?
  let script ← Source.loadChecked source
  return (attached c script folder source name).atStart

/-- A new session in a folder. -/
def start (c : Config) (source folder : Path) : Job Session := do
  let isNew ← Job.ask fun d => !d.isThere folder
  Job.changeInPart s!"create run directory {folder.text}" fun d => d.makeAll folder
  let cleanup (d : Disk) : Disk := if isNew then (d.removeAll folder).1 else d
  Job.cleaning cleanup (openNew c source folder)

/-- The place that an archive holds: a negative one counts as the first. -/
def savedPlace (a : Archive) : Nat := ((a.int? placeKey).getD 0).toInt.toNat

/-- The session that was saved in a folder. -/
def resume (c : Config) (folder : Path) : Job Session := do
  let layout := Run.Layout.of c folder
  let a ← Run.loadState layout.state
  let name ← Job.require s!"{layout.state.text} contains no {nameKey}"
    ((a.text? nameKey).filter fun s => !s.isEmpty)
  let source := layout.script name
  let script ← Source.load source
  let (script, r) := script.load a
  Job.within s!"restore state from {layout.state.text}" (Job.ofAnswer (ofScript r))
  return (attached c script folder source name).refreshed.movedTo (savedPlace a)

/-- The archive of the session. -/
def archive (s : Session) : Except Fault Archive :=
  (s.script.save ((Archive.empty.putText nameKey s.name).putInt placeKey
    (Int64.ofNat s.bookmark.current))).2

/-- The session is saved in its folder. The script is copied if there is no copy yet. -/
def save (s : Session) : Job Unit := do
  let a ← Job.within "save script state" (Job.ofAnswer (ofScript s.archive))
  let copy := s.layout.script s.name
  unless ← Job.ask fun d => d.isThere copy do
    Job.change s!"copy script {s.source.text} to {copy.text}" fun d => d.copy s.source copy
  Run.writeState s.layout.state a

/-- The report is written, and the path of its file is answered. -/
def writeReport (s : Session) : Job Path := do
  let p := s.layout.report
  Job.within s!"export answers to {p.text}" (Job.replaceText p s.script.report)
  return p

/-- The session with another place of the chain selected. -/
def goTo (s : Session) (place : Nat) : Except Failure Session :=
  if place < s.bookmark.chain.length then
    .ok { s with bookmark := { s.bookmark with current := place } }
  else
    .error (.ofRule
      s!"page {place} is not available (only {s.bookmark.chain.length} page(s) unlocked)")

/-- Whether the learner has nothing left to do. -/
def isComplete (s : Session) : Bool := s.script.isComplete

end Session

end GuidedLab
