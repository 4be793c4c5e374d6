import GuidedLab.Archive.Text
import GuidedLab.Disk.Job

/-!
# State files

A state file holds an archive as pretty text and a line break.
-/

namespace GuidedLab.Run

/-- The archive in a state file. -/
def loadState (p : Path) : Job Archive := do
  let text ← Job.query s!"read script state {p.text}" fun d => d.readText p
  match Archive.ofText? text with
  | some a => return a
  | none => Job.ofAnswer (.error ⟨[s!"parse script state {p.text}"], .json⟩)

/-- The text of the state file of an archive. -/
def stateText (a : Archive) : String := a.pretty ++ "\n"

/-- An archive as the content of a state file. -/
def writeState (p : Path) (a : Archive) : Job Unit := Job.replaceText p (stateText a)

end GuidedLab.Run
