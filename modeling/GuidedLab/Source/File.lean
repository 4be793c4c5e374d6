import GuidedLab.Disk.Job
import GuidedLab.Source.Text

/-!
# Script files

A script is loaded from the text of a file.
-/

namespace GuidedLab.Source

/-- The script in a file. -/
def load (p : Path) : Job Script := do
  let text ← Job.query s!"read script {p.text}" fun d => d.readText p
  Job.within s!"load script {p.text}" (Job.ofAnswer (script text))

/-- The script in a file, with all components well configured. -/
def loadChecked (p : Path) : Job Script := do
  let s ← load p
  let (s, r) := s.check
  Job.within s!"check script {p.text}" (Job.ofAnswer (ofScript r))
  return s

end GuidedLab.Source
