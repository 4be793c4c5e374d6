import GuidedLab.Proofs.Archive.Depth
import GuidedLab.Proofs.Script.Interruption
import GuidedLab.Proofs.Session.Saved

/-!
# State files are read back

A text that has replaced the content of a file is what is read from it, wherever its path leads
(`Job.readText_of_replaceText`): the draft is moved to the very place that the path is followed to, and
the draft itself is no folder that is passed on the way.

An archive is read back from either of its texts as long as it is not deeper than a text may be. What is
saved of a script in a run is never deeper if what it is saved into is not, so a state file gives back
the archive that was written, and the script as it is loaded takes it back
(`Run.state_read_back`).
-/

namespace GuidedLab

namespace Disk

variable {d e d' : Disk} {p above segments : List String} {path source target : Path} {name : String}
  {content : ByteArray}

/-- A place where a file can be put: one is there, or the name is free for it. -/
inductive TakesFile (above : List String) (name : String) : Place → Prop where
  | file (old : ByteArray) : TakesFile above name (.file above name old)
  | free : TakesFile above name (.free above name false)

/-- Where a row of segments leads to a place for a file, it leads to the file that is put there, if the
folders stay. -/
theorem TakesFile.follow {x : Place} (hx : TakesFile above name x)
    (folders : ∀ q, d.find? q = some .folder → e.find? q = some .folder)
    (file : e.find? (above ++ [name]) = some (.file content)) (h : d.follow p segments = .ok x) :
    e.follow p segments = .ok (.file above name content) := by
  induction segments generalizing p with
  | nil =>
      cases h
      cases hx
  | cons s rest ih =>
      by_cases hidle : Path.isIdle s = true
      · rw [follow_idle hidle] at h ⊢
        exact ih h
      by_cases hs : s = ".."
      · subst hs
        rw [follow_up] at h ⊢
        exact ih h
      have hidle : Path.isIdle s = false := Bool.eq_false_iff.2 hidle
      rw [follow_name hidle hs] at h ⊢
      split at h
      · cases h
      · next hlen =>
          rw [if_neg hlen]
          split at h
          · next hf =>
              rw [folders _ hf]
              exact ih h
          · split at h
            · next hr =>
                cases h
                cases hx
                rw [file]
                dsimp only
                rw [if_pos hr]
            · cases h
          · split at h
            · cases h
              generalize hr : (!rest.isEmpty) = only at hx
              cases hx
              rw [file]
              dsimp only
              rw [if_pos (by simpa using hr)]
            · cases h

theorem TakesFile.place {x : Place} (hx : TakesFile above name x) (working : e.working = d.working)
    (folders : ∀ q, d.find? q = some .folder → e.find? q = some .folder)
    (file : e.find? (above ++ [name]) = some (.file content)) (h : d.place path = .ok x) :
    e.place path = .ok (.file above name content) := by
  obtain ⟨base, hb, hfollow⟩ := exists_base_of_place h
  rw [place_eq (isSound_of_place h),
    base?_of_found hb working (folders base (find?_base? hb).1)]
  exact hx.follow folders file hfollow

/-- A place for a file is no folder. -/
theorem TakesFile.position {x : Place} (hx : TakesFile above name x) :
    x.position = above ++ [name] ∧ x.found? ≠ some .folder := by
  cases hx with
  | file old => exact ⟨rfl, nofun⟩
  | free => exact ⟨rfl, nofun⟩

/-- A file is moved to a place for a file. -/
theorem exists_takesFile_of_rename (h : d.rename source target = .ok d') :
    ∃ x above name, d.place target = .ok x ∧ TakesFile above name x := by
  rw [rename] at h
  split at h
  · split at h
    · cases h
    · split at h
      · next above' name' hy => exact ⟨_, above', name', hy, .free⟩
      · next above' name' old hy => exact ⟨_, above', name', hy, .file old⟩
      · cases h
      · cases h
      · cases h
  · cases h
  · cases h
  · cases h

/-- Where a file has been moved to, it is found by the same path. -/
theorem place_of_rename (h : d.rename source target = .ok d') :
    ∃ above name content, d.find? (source.positionFrom d.working) = some (.file content) ∧
      d'.place target = .ok (.file above name content) := by
  obtain ⟨x, above, name, hplace, hx⟩ := exists_takesFile_of_rename h
  obtain ⟨content, mid, hsource, -, hgone, hput⟩ := rename_eq_ok h
  obtain ⟨hposition, hfound, -⟩ := place_eq_ok hplace
  obtain ⟨hends, hnone⟩ := hx.position
  have htarget : d.find? (target.positionFrom d.working) ≠ some .folder := by
    rw [← hposition, hfound]
    exact hnone
  refine ⟨above, name, content, hsource, ?_⟩
  refine hx.place (hput.working.trans hgone.working) (fun q hq => ?_) ?_ hplace
  · -- neither the draft nor what it replaces is a folder, so no folder is touched
    rw [hput.find?_of_not_prefix (not_prefix_of_folder htarget hq),
      hgone.find?_of_not_prefix (not_prefix_of_folder (by rw [hsource]; nofun) hq), hq]
  · rw [← hends, hposition, hput.find?_self]
    rfl

end Disk

namespace Job

open Disk

variable {d d' : Disk} {p : Path} {text : String}

/-- What has replaced the text of a file is read from it. -/
theorem readText_of_replaceText (h : (replaceText p text).run d = (.ok (), d')) :
    d'.readText p = .ok text := by
  rw [replaceText] at h
  obtain ⟨above, _, -, h⟩ := run_bind_eq_ok_iff.1 h
  obtain ⟨_, made, -, h⟩ := run_bind_eq_ok_iff.1 h
  obtain ⟨name, _, -, h⟩ := run_bind_eq_ok_iff.1 h
  obtain ⟨_, drafted, hwrite, hrename⟩ := run_bind_eq_ok_iff.1 h
  have hdrafted := write_eq_ok (run_change_eq_ok_iff.1 hwrite)
  obtain ⟨_, _, content, hcontent, hplace⟩ := place_of_rename (run_change_eq_ok_iff.1 hrename)
  have htext : content = text.toUTF8 := by
    rw [hdrafted.working, hdrafted.find?_self] at hcontent
    cases hcontent
    rfl
  rw [readText, Disk.read, hplace]
  dsimp only
  rw [fromUTF8?_eq_some_iff.2 htext]

end Job

namespace Run

/-- A state file gives back the archive that was written. -/
theorem loadState_of_writeState {p : Path} {a : Archive} {d d' : Disk}
    (depth : a.depth ≤ Json.depthLimit) (h : (writeState p a).run d = (.ok (), d')) :
    (loadState p).run d' = (.ok a, d') :=
  run_loadState (Job.readText_of_replaceText h) depth

end Run

namespace Script

/-- What is saved of a loaded script in a run is no deeper than what a text can be read back from, unless
what it is saved into is. -/
theorem depth_save_le {text : String} {fresh : Script} (loaded : Source.script text = .ok fresh)
    (calls : List Call) {a saved : Archive} (depth : a.depth ≤ Json.depthLimit)
    (h : ((fresh.after calls).save a).2 = .ok saved) : saved.depth ≤ Json.depthLimit :=
  Tree.depth_savedInto_le (n := Json.depthLimit - 1)
    ((Source.written_of_script loaded).2.of_withoutChanges_eq (fresh.withoutChanges_after calls)) depth h

end Script

namespace Run

/-- An archive that is not too deep is read back from both its texts. What is saved of a loaded script in
any run is not too deep, so it is read back unchanged from the file that it was written to, and the script
as it is loaded takes it back. -/
theorem state_read_back :
    (∀ a : Archive, a.depth ≤ Json.depthLimit →
      Archive.ofText? a.compact = some a ∧ Archive.ofText? a.pretty = some a) ∧
    ∀ (text : String) (fresh : Script) (calls : List Script.Call) (a : Archive),
      Source.script text = .ok fresh → a.depth ≤ Json.depthLimit →
        ∃ saved, ((fresh.after calls).save a).2 = .ok saved ∧ saved.depth ≤ Json.depthLimit ∧
          (∀ (p : Path) (d d' : Disk), (writeState p saved).run d = (.ok (), d') →
            (loadState p).run d' = (.ok saved, d')) ∧
          (fresh.load saved).2 = .ok () := by
  constructor
  · intro a depth
    exact ⟨Archive.ofText?_compact depth, Archive.ofText?_pretty depth⟩
  · intro text fresh calls a loaded depth
    obtain ⟨saved, hsaved, htaken, -, -⟩ :=
      Script.exists_saved_of_after (.loaded loaded) (Source.isEmpty_of_script loaded) calls a
    have hdepth := Script.depth_save_le loaded calls depth hsaved
    exact ⟨saved, hsaved, hdepth, fun p d d' h => loadState_of_writeState hdepth h, htaken⟩

theorem run_replaceText_default (text : String) :
    (Job.replaceText ⟨"state.json"⟩ text).run default =
      (.ok (), ⟨.file "state.json" text.toUTF8 .nil, []⟩) := rfl

theorem state_read_back_quoted :
    (∃ a : Archive, a = (Archive.empty.putText "\"\\\n" "é\t\"").putInt "" (-1) ∧
      Archive.ofText? a.compact = some a ∧ Archive.ofText? a.pretty = some a) ∧
    ∃ saved d', ((Script.question.after [.interact (.ofNode 0) (.answer "\"g\"\n")]).save .empty).2 =
        .ok saved ∧
      (writeState ⟨"state.json"⟩ saved).run default = (.ok (), d') ∧
      (loadState ⟨"state.json"⟩).run d' = (.ok saved, d') ∧
      (Script.question.load saved).2 = .ok () := by
  obtain ⟨htexts, hruns⟩ := state_read_back
  obtain ⟨saved, hsaved, -, hread, htaken⟩ := hruns Script.questionText Script.question
    [.interact (.ofNode 0) (.answer "\"g\"\n")] .empty Script.script_questionText (by decide)
  have hwrite := run_replaceText_default (stateText saved)
  exact ⟨⟨_, rfl, htexts _ (by decide)⟩, saved, _, hsaved, hwrite, hread _ _ _ hwrite, htaken⟩

end Run

end GuidedLab
