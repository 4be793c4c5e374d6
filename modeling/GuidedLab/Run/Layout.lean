import GuidedLab.Config.Basic
import GuidedLab.Path

/-!
# The layout of a run

The paths of what lies in the folder of one run.
-/

namespace GuidedLab.Run

/-- The paths in the folder of a run. -/
structure Layout where
  folder : Path
  state : Path
  report : Path
  experiments : Path
deriving DecidableEq, Repr

namespace Layout

/-- The layout that a configuration gives to a folder. -/
def of (c : Config) (folder : Path) : Layout :=
  ⟨folder, folder.child c.state, folder.child c.report, folder.child c.experiments⟩

/-- The path of the run's own copy of the script. -/
def script (l : Layout) (name : String) : Path := l.folder.child name

/-- A path seen from the folder of the run, if it leads into it. -/
def relative? (l : Layout) (p : Path) : Option Path := Path.stripPrefix? l.folder p

end Layout

end GuidedLab.Run
