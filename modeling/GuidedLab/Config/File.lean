import GuidedLab.Config.Text
import GuidedLab.Disk.Job

/-!
# Configuration files

Where there is no file, the standard configuration holds. A configuration is valid before it is used
and before it is written.
-/

namespace GuidedLab.Config

/-- The name of the configuration file that is looked for if none is given. -/
def fileName : String := "lablet.toml"

/-- The configuration in a file. -/
def load (p : Path) : Job Config := do
  if ← Job.ask fun d => d.isThere p then
    let text ← Job.query s!"read {p.text}" fun d => d.readText p
    match ofText? text with
    | none => Job.ofAnswer (.error ⟨[s!"parse {p.text}"], .toml⟩)
    | some c =>
      Job.within s!"invalid config {p.text}" (Job.ofAnswer c.validate)
      return c
  else return standard

/-- A configuration as the content of a file. -/
def write (p : Path) (c : Config) : Job Unit := do
  Job.ofAnswer c.validate
  Job.replaceText p c.text

end GuidedLab.Config
