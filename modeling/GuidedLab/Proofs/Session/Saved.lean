import GuidedLab.Proofs.Disk.Opens
import GuidedLab.Proofs.Session.Archived
import GuidedLab.Proofs.Session.Confined

/-!
# A saved session is resumed

The script's copy, the state file, the draft of the state file and, when a report is written, the report
and its draft lie in one folder, under names that come from two places: the configuration and the file
of the script. As long as the name of the script is none of the others, and the state file is not the
draft of the report, a successful save leaves the folder so that it *keeps* the session
(`kept_of_save`): the state file holds its archive and the copy the text of the script. A folder that
keeps a session is resumed, with the bookmark and the progress of that session (`Kept.exists_resume`).
-/

namespace GuidedLab

open Disk (ChangesBelow Holds Refiles)
open GuidedLab.Path (IsPlain)

theorem Source.run_load {p : Path} {text : String} {fresh : Script} {d : Disk}
    (read : d.readText p = .ok text) (loaded : script text = .ok fresh) :
    (load p).run d = (.ok fresh, d) := by
  rw [load]
  refine Job.run_bind_eq_ok_iff.2 ⟨text, d, Job.run_query_eq_ok_iff.2 ⟨read, rfl⟩, ?_⟩
  rw [loaded]
  rfl

theorem Source.load_eq_ok {p : Path} {fresh : Script} {d d' : Disk}
    (h : (load p).run d = (.ok fresh, d')) :
    d' = d ∧ ∃ text, d.readText p = .ok text ∧ script text = .ok fresh := by
  rw [load] at h
  obtain ⟨text, d₁, hquery, hwithin⟩ := Job.run_bind_eq_ok_iff.1 h
  obtain ⟨hread, rfl⟩ := Job.run_query_eq_ok_iff.1 hquery
  obtain ⟨hscript, rfl⟩ := Job.run_ofAnswer_eq_ok_iff.1 (Job.run_within_eq_ok_iff.1 hwithin)
  exact ⟨rfl, text, hread, hscript⟩

theorem Source.loadChecked_eq_ok {p : Path} {fresh : Script} {d d' : Disk}
    (h : (loadChecked p).run d = (.ok fresh, d')) : (load p).run d = (.ok fresh, d') := by
  rw [loadChecked] at h
  obtain ⟨loaded, d₁, hload, hcheck⟩ := Job.run_bind_eq_ok_iff.1 h
  dsimp only [Script.check] at hcheck
  obtain ⟨_, d₂, hwithin, hpure⟩ := Job.run_bind_eq_ok_iff.1 hcheck
  obtain ⟨hok, rfl⟩ := Job.run_ofAnswer_eq_ok_iff.1 (Job.run_within_eq_ok_iff.1 hwithin)
  rw [ofScript_eq_ok_iff.1 hok, Script.remembering_ok] at hpure
  obtain ⟨rfl, rfl⟩ := Job.run_pure_eq_ok_iff.1 hpure
  exact hload

theorem Run.run_loadState {p : Path} {a : Archive} {d : Disk}
    (read : d.readText p = .ok (stateText a)) (depth : a.depth ≤ Json.depthLimit) :
    (loadState p).run d = (.ok a, d) := by
  rw [loadState]
  refine Job.run_bind_eq_ok_iff.2 ⟨stateText a, d, Job.run_query_eq_ok_iff.2 ⟨read, rfl⟩, ?_⟩
  rw [stateText, Archive.ofText?_pretty_line depth]
  rfl

namespace Session

variable {c : Config} {folder source : Path} {name text : String} {s t u : Session} {d d' e : Disk}

/-- A session that shows what another one shows: the chain and the selected page, and the state, the
answer and the recording of every part. -/
structure ShowsAs (s t : Session) : Prop where
  bookmark : t.bookmark = s.bookmark
  progress : ∀ k p, (t.script.tree.part? k p).map Component.progress =
    (s.script.tree.part? k p).map Component.progress

theorem ShowsAs.refl (s : Session) : s.ShowsAs s := ⟨rfl, fun _ _ => rfl⟩

theorem ShowsAs.trans (h : s.ShowsAs t) (h' : t.ShowsAs u) : s.ShowsAs u :=
  ⟨h'.bookmark.trans h.bookmark, fun k p => (h'.progress k p).trans (h.progress k p)⟩

theorem ShowsAs.symm (h : s.ShowsAs t) : t.ShowsAs s :=
  ⟨h.bookmark.symm, fun k p => (h.progress k p).symm⟩

/-- A session that shows what is read back of another one: the chain and the selected page, and in every
part the state, the answer and the text of the recording's path. -/
structure ResumesAs (s t : Session) : Prop where
  bookmark : t.bookmark = s.bookmark
  progress : ∀ k p, (t.script.tree.part? k p).map Component.progress =
    (s.script.tree.part? k p).map fun c => c.progress.settled

theorem ShowsAs.trans_resumesAs (h : s.ShowsAs t) (h' : t.ResumesAs u) : s.ResumesAs u := by
  refine ⟨h'.bookmark.trans h.bookmark, fun k p => ?_⟩
  have hsettled := congrArg (Option.map Progress.settled) (h.progress k p)
  rw [Option.map_map, Option.map_map] at hsettled
  exact (h'.progress k p).trans hsettled

/-- All of a session is shown again if all that is recorded is written as texts. -/
theorem ResumesAs.showsAs (h : s.ResumesAs t) (written : s.script.tree.Records RawPath.IsWritten) :
    s.ShowsAs t :=
  ⟨h.bookmark, fun k p => (h.progress k p).trans (Tree.settled_of_records written k p)⟩

/-- A disk keeps a session in the folder of its run: the state file holds the archive of the session, and
the script lies beside it. -/
structure Kept (c : Config) (folder : Path) (name text : String) (s : Session) (d : Disk) : Prop where
  works : s.WorksOn c folder name text
  opens : d.Opens folder
  state : Holds folder c.state
  script : Holds folder name
  archived : ∀ a, s.archive = .ok a →
    d.find? (folder.positionFrom d.working ++ [c.state]) = some (.file (Run.stateText a).toUTF8)
  copied : d.find? (folder.positionFrom d.working ++ [name]) = some (.file text.toUTF8)

/-- A session that is kept is resumed. -/
theorem Kept.exists_resume (h : Kept c folder name text s d) (fits : text.utf8ByteSize < memoryLimit) :
    ∃ u fresh, (resume c folder).run d = (.ok u, d) ∧ u.WorksOn c folder name text ∧
      s.ResumesAs u ∧ Source.script text = .ok fresh ∧
      u.script.tree.withoutProgress = fresh.tree.withoutProgress ∧
      u = { attached c { fresh with tree := u.script.tree } folder (folder.child name) name with
        bookmark := u.bookmark } := by
  obtain ⟨a, fresh, restored, ha, hdepth, hname, hplace, hload, -, hrestored, hrest, hlasting,
    hprogress⟩ := h.works.exists_archive
  have hstate := h.opens.readText_child h.state (h.archived a ha)
  have hcopy := h.opens.readText_child h.script h.copied
  have hmeant : (a.text? nameKey).filter (fun s => !s.isEmpty) = some name := by
    rw [hname, Option.filter_some_pos]
    simpa using h.script.ne_empty
  have hrun : (resume c folder).run d =
      (.ok ((attached c { fresh with tree := restored } folder (folder.child name) name).refreshed.movedTo
        (savedPlace a)), d) := by
    rw [resume]
    refine Job.run_bind_eq_ok_iff.2 ⟨a, d, Run.run_loadState hstate hdepth, ?_⟩
    refine Job.run_bind_eq_ok_iff.2 ⟨name, d, Job.run_require_eq_ok_iff.2 ⟨hmeant, rfl⟩, ?_⟩
    refine Job.run_bind_eq_ok_iff.2 ⟨fresh, d, Source.run_load hcopy hload, ?_⟩
    rw [Script.load, hrestored]
    rfl
  have hchain : restored.chain = s.bookmark.chain := by
    rw [h.works.inStep.bookmark.chain]
    exact Tree.chain_eq_of_settled (Tree.shape_eq_of_map_eq hlasting) hprogress
  have hsaved : savedPlace a = s.bookmark.current := by
    rw [savedPlace, hplace, Option.getD_some,
      Int64.toInt_ofNat_of_lt (h.works.current_lt fits), Int.toNat_natCast]
  refine ⟨_, fresh, hrun, ⟨rfl, rfl, h.works.plain, ⟨fresh, [.load a], hload, rfl, ?_⟩,
    (Opened.resumed ⟨d, d, hrun⟩).inStep⟩, ⟨?_, hprogress⟩, hload, hrest, rfl⟩
  · show restored = (fresh.load a).1.tree
    rw [Script.load, hrestored]
  · have hcurrent := h.works.inStep.bookmark.current
    show Bookmark.mk restored.chain (min (savedPlace a) (restored.chain.length - 1)) = s.bookmark
    rw [hchain, hsaved, Nat.min_eq_left (by omega)]

/-! ### Saving -/

/-- What a save has done when it succeeds: the script was there or was copied, and the state written. -/
theorem save_eq_ok (h : s.save.run d = (.ok (), d')) :
    ∃ a e, s.archive = .ok a ∧
      (d.isThere (s.layout.script s.name) = true ∧ e = d ∨
        d.isThere (s.layout.script s.name) = false ∧
          d.copy s.source (s.layout.script s.name) = .ok e) ∧
      (Run.writeState s.layout.state a).run e = (.ok (), d') := by
  rw [save] at h
  obtain ⟨a, d₁, harchive, hsave⟩ := Job.run_bind_eq_ok_iff.1 h
  obtain ⟨ha, rfl⟩ := Job.run_ofAnswer_eq_ok_iff.1 (Job.run_within_eq_ok_iff.1 harchive)
  obtain ⟨there, d₂, hask, hrest⟩ := Job.run_bind_eq_ok_iff.1 hsave
  obtain ⟨hthere, rfl⟩ := Job.run_ask_eq_ok_iff.1 hask
  cases there with
  | true => exact ⟨a, _, ofScript_eq_ok_iff.1 ha, Or.inl ⟨hthere, rfl⟩, hrest⟩
  | false =>
      obtain ⟨_, e, hcopy, hwrite⟩ := Job.run_bind_eq_ok_iff.1 hrest
      exact ⟨a, e, ofScript_eq_ok_iff.1 ha,
        Or.inr ⟨hthere, Job.run_change_eq_ok_iff.1 hcopy⟩, hwrite⟩

/-- The text of a script is in the folder of the run, or there is room for it and it is where the session
has it from. -/
def AtHand (folder : Path) (name text : String) (s : Session) (d : Disk) : Prop :=
  d.find? (folder.positionFrom d.working ++ [name]) = some (.file text.toUTF8) ∨
    d.find? (folder.positionFrom d.working ++ [name]) = none ∧
      d.find? (s.source.positionFrom d.working) = some (.file text.toUTF8)

/-- Whatever a save found, the script is in the folder before the state is written. -/
theorem AtHand.copied (hand : AtHand folder name text s d) (opens : d.Opens folder)
    (plain : IsPlain name)
    (h : d.isThere (folder.child name) = true ∧ e = d ∨
      d.isThere (folder.child name) = false ∧ d.copy s.source (folder.child name) = .ok e) :
    ChangesBelow (folder.positionFrom d.working) d e ∧ Holds folder name ∧
      e.find? (folder.positionFrom d.working ++ [name]) = some (.file text.toUTF8) := by
  rcases h with ⟨hthere, rfl⟩ | ⟨hthere, hcopy⟩
  · obtain ⟨x, hplace⟩ : ∃ x, e.place (folder.child name) = .ok x := by
      rw [Disk.isThere] at hthere
      split at hthere
      · next hx => exact ⟨_, hx⟩
      · next hx => exact ⟨_, hx⟩
      · cases hthere
    have holds := Disk.holds_of_place plain hplace
    refine ⟨.refl _ e, holds, ?_⟩
    rcases hand with hfile | ⟨hnone, -⟩
    · exact hfile
    · rw [opens.isThere_child holds, hnone] at hthere
      cases hthere
  · obtain ⟨content, hread, hwrite⟩ := Disk.copy_eq_ok hcopy
    obtain ⟨x, hplace⟩ := Disk.exists_place_of_write hwrite
    have holds := Disk.holds_of_place plain hplace
    have hr := Disk.write_eq_ok hwrite
    rw [Path.positionFrom_child folder plain] at hr
    refine ⟨hr.changesBelow (List.prefix_append _ _) (Disk.append_ne_self (List.cons_ne_nil _ _) _),
      holds, ?_⟩
    rcases hand with hfile | ⟨-, hsource⟩
    · rw [opens.isThere_child holds, hfile] at hthere
      cases hthere
    · have hfound := Disk.find?_of_read hread
      rw [hsource] at hfound
      cases hfound
      rw [hr.find?_self]
      rfl

/-- A successful save leaves the session kept, if the script is not named as the state or its draft. -/
theorem kept_of_save (works : s.WorksOn c folder name text) (opens : d.Opens folder)
    (named : Config.IsNamed c.state) (hand : AtHand folder name text s d) (state : name ≠ c.state)
    (draft : name ≠ c.state ++ Job.draftEnding) (h : s.save.run d = (.ok (), d')) :
    Kept c folder name text s d' ∧ ChangesBelow (folder.positionFrom d.working) d d' ∧
      Holds folder.trimmed (c.state ++ Job.draftEnding) ∧
      d'.find? (folder.positionFrom d.working ++ [c.state ++ Job.draftEnding]) = none := by
  obtain ⟨a, e, ha, hcopied, hwrite⟩ := save_eq_ok h
  rw [works.layout, works.named] at hcopied
  obtain ⟨hbelow, holds, hcopy⟩ := hand.copied opens works.plain hcopied
  rw [works.layout] at hwrite
  obtain ⟨-, hstate, hdraft, hfiles⟩ :=
    Job.replaceText_eq_ok (opens.of_changesBelow hbelow) named.filled named.whole hwrite
  rw [hbelow.working] at hfiles
  have hchanges := hbelow.trans hfiles.changesBelow
  refine ⟨⟨works, opens.of_changesBelow hchanges, hstate, holds, ?_, ?_⟩, hchanges, hdraft,
    hfiles.draft⟩
  · intro b hb
    rw [ha] at hb
    cases hb
    rw [hchanges.working]
    exact hfiles.file
  · rw [hchanges.working, hfiles.find?_of_ne state draft]
    exact hcopy

end Session

end GuidedLab
