import GuidedLab.Proofs.Path.Position
import GuidedLab.Proofs.Script.Snapshot

/-!
# Recorded paths lie below the run

A recorded path comes into a script by an interaction or with a snapshot, which anyone may have written.
Both let in contained paths only, so nothing else is ever found in a script (`recorded_below`). What that
is worth is told by where a path leads: a contained path, in whatever way it is written, leads strictly
below every directory it is joined to.
-/

namespace GuidedLab.Script

/-- A contained path leads strictly below every directory. -/
theorem positionFrom_join_below {path : Path} (contained : path.isContained = true) (directory : Path)
    (start : List String) :
    directory.positionFrom start <+: (directory.join path).positionFrom start ∧
      (directory.join path).positionFrom start ≠ directory.positionFrom start := by
  obtain ⟨-, hne, -⟩ := Path.positionFrom_of_isContained contained
  rw [Path.positionFrom_join_of_isContained directory contained]
  refine ⟨List.prefix_append _ _, ?_⟩
  intro hsame
  exact hne (List.append_right_eq_self.1 hsame)

/-- In every run of a script as it is made, every recorded path is a contained one, and a contained path
joined to a directory leads to a place strictly below the place of the directory, be it any bytes or a
text. -/
theorem recorded_below {s : Script} (made : s.Made) (calls : List Call) :
    (∀ a name state e path, (s.after calls).tree.at? a = some (.leaf name state (.experiment e)) →
      e.path = some path → path.isContained = true) ∧
    (∀ (path directory : RawPath) (start : List String), path.isContained = true →
      directory.spelled.positionFrom start <+:
          (directory.spelled.join path.spelled).positionFrom start ∧
        (directory.spelled.join path.spelled).positionFrom start ≠
          directory.spelled.positionFrom start) ∧
    ∀ (path directory : Path) (start : List String), path.isContained = true →
      directory.positionFrom start <+: (directory.join path).positionFrom start ∧
        (directory.join path).positionFrom start ≠ directory.positionFrom start := by
  refine ⟨?_, ?_, ?_⟩
  · intro a name state e path found hpath
    obtain ⟨page, hpage, hitem⟩ := Option.bind_eq_some_iff.1 found
    have hcontained := made.isContained_after calls page (Tree.mem_components_iff.2 ⟨_, hpage⟩)
    exact hcontained a.items _ hitem path hpath
  · intro path directory start contained
    exact positionFrom_join_below contained directory.spelled start
  · intro path directory start contained
    exact positionFrom_join_below contained directory start

/-- An archive that fits `swing` but for a path that leads out of the run. -/
def straying : Archive :=
  (Archive.empty.putNested "0"
    ((Archive.empty.putInt State.key 0).putNested "0"
      ((Archive.empty.putInt State.key 0).putText Experiment.pathKey "a/../../b"))).putText
        Tree.fingerprintKey swing.tree.fingerprint

/-- A path that leads out of the run is recorded, a plain one is, and the former is taken from an
archive. -/
def strayingRun : List Call :=
  [.interact ⟨0, [0]⟩ (.record (.ofPath ⟨"../b"⟩)), .interact ⟨0, [0]⟩ (.record (.ofPath ⟨"a//./b/"⟩)),
    .load straying]

theorem recorded_below_straying :
    (∃ name state e, (swing.after strayingRun).tree.at? ⟨0, [0]⟩ =
        some (.leaf name state (.experiment e)) ∧ e.path = some (.ofPath ⟨"a//./b/"⟩)) ∧
      (⟨"a//./b/"⟩ : Path).isContained = true ∧
      ((⟨"../data"⟩ : Path).join ⟨"a//./b/"⟩).positionFrom ["home"] ≠ ["data"] := by
  obtain ⟨hrecorded, -, hbelow⟩ := recorded_below made_swing strayingRun
  have found : (swing.after strayingRun).tree.at? ⟨0, [0]⟩ =
      some (.leaf "swing" .plainlyDone (.experiment ⟨.camera, "", some (.ofPath ⟨"a//./b/"⟩)⟩)) := by
    decide +kernel
  have hcontained := (RawPath.isContained_ofPath _).symm.trans (hrecorded _ _ _ _ _ found rfl)
  exact ⟨⟨_, _, _, found, rfl⟩, hcontained, (hbelow _ ⟨"../data"⟩ ["home"] hcontained).2⟩

end GuidedLab.Script
