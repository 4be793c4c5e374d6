import GuidedLab.Disk.Job
import GuidedLab.Run.Name

/-!
# The folders of runs

Each run has a folder of its own in the folder of all runs, and its name is the name of the run. A
folder of all runs that is missing has no runs. A run is never created over another one.
-/

namespace GuidedLab.Run

/-- The name of a run has to name something in a folder. -/
def checkName (name : String) : Job Unit :=
  if isName name then pure () else Job.refuse s!"invalid run name '{name}'"

/-- A new run of a name, by the path of its folder. -/
def create (runs : Path) (name : String) : Job Path := do
  checkName name
  Job.changeInPart s!"create directory {runs.text}" fun d => d.makeAll runs
  let folder := runs.child name
  match ← Job.ask fun d => d.make folder with
  | .error .present => Job.refuse s!"run directory {folder.text} already exists"
  | _ =>
    Job.change s!"create run directory {folder.text}" fun d => d.make folder
    return folder

/-- A new run that is started at a moment, by the path of its folder. -/
def createAt (runs : Path) (now : Moment) (seed : String) : Job Path :=
  create runs (nameAt now seed)

/-- The runs, the latest names first. -/
def list (runs : Path) : Job (List Entry) := do
  if ← Job.ask fun d => d.isThere runs then
    let names ← Job.query s!"read directory {runs.text}" fun d => d.foldersIn runs
    return (names.mergeSort fun a b => decide (b ≤ a)).map Entry.ofName
  else return []

/-- A run is deleted with all its files. -/
def delete (runs : Path) (name : String) : Job Unit := do
  checkName name
  let folder := runs.child name
  if ← Job.ask fun d => d.isFolder folder then
    Job.changeInPart s!"delete run {folder.text}" fun d => d.removeAll folder
  else Job.refuse s!"no run named {name} in {runs.text}"

end GuidedLab.Run
