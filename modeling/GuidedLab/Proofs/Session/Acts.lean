import GuidedLab.Proofs.Script.Interruption
import GuidedLab.Proofs.Session.Page
import GuidedLab.Proofs.Source.Written
import GuidedLab.Proofs.Disk.Place

/-!
# Acts of a session

What a learner can do in an open session are acts: interactions, recordings, going to a page, saving and
writing the report. `act` carries out one of them on the session and the disk. `Reached c folder s d`
says that a session and a disk are what a start or a resume in the folder and any acts since, refused
ones included, have led to.

Of every such session it is known where its files are, where its script came from, and that its tree is
that of a run of a loaded script (`Session.IsOf`, `Reached.isOf`).
-/

namespace GuidedLab

namespace Script

theorem after_concat (s : Script) (calls : List Call) (call : Call) :
    s.after (calls ++ [call]) = (s.after calls).perform call := by
  rw [after, after, List.foldl_append]
  rfl

/-- A start sees and changes nothing of a script but its tree. -/
theorem start_of_tree_eq {s t : Script} (h : s.tree = t.tree) :
    s.start.2 = t.start.2 ∧ s.start.1.tree = t.start.1.tree := by
  rw [start, start, h]
  cases t.tree.component? 0 with
  | none => exact ⟨rfl, h⟩
  | some c =>
      dsimp only
      split
      · exact ⟨rfl, rfl⟩
      · exact ⟨rfl, h⟩

end Script

namespace Session

/-- What can be done in a session. -/
inductive Act where
  | interact (a : Address) (i : Interaction)
  | record (a : Address) (source : Path) (now : Moment)
  | goTo (place : Nat)
  | save
  | writeReport

/-- A session and the disk after an act, and the failure if it was refused. -/
def act (s : Session) (act : Act) : StateM Disk (Session × Except Failure Unit) := fun d =>
  match act with
  | .interact a i =>
    let r := s.interact a i d
    ((r.1.1, r.1.2.map fun _ => ()), r.2)
  | .record a source now =>
    let r := s.record a source now d
    ((r.1.1, r.1.2.map fun _ => ()), r.2)
  | .goTo place =>
    match s.goTo place with
    | .ok t => ((t, .ok ()), d)
    | .error f => ((s, .error f), d)
  | .save =>
    let r := s.save.run d
    ((s, r.1), r.2)
  | .writeReport =>
    let r := s.writeReport.run d
    ((s, r.1.map fun _ => ()), r.2)

/-- A session and a disk that were come to in the folder of a run: the session was started, with a
working folder that is there, or resumed, and worked on since. -/
inductive Reached (c : Config) (folder : Path) : Session → Disk → Prop where
  | started {source : Path} {s : Session} {d d' : Disk} (there : d.find? d.working = some .folder)
      (h : (start c source folder).run d = (.ok s, d')) : Reached c folder s d'
  | resumed {s : Session} {d d' : Disk} (h : (resume c folder).run d = (.ok s, d')) :
      Reached c folder s d'
  | acted {s : Session} {d : Disk} (h : Reached c folder s d) (a : Act) :
      Reached c folder (s.act a d).1.1 (s.act a d).2

/-- A session of a run: its files are in the folder, its script was copied from elsewhere under a plain
name or is the copy itself, and its tree is that of a run of a loaded script. -/
structure IsOf (c : Config) (folder : Path) (s : Session) : Prop where
  layout : s.layout = Run.Layout.of c folder
  named : Path.IsPlain s.name ∨ s.source = folder.child s.name
  ran : ∃ text fresh calls, Source.script text = .ok fresh ∧
    s.script.tree = (fresh.after calls).tree

variable {c : Config} {folder : Path} {s : Session} {d : Disk}

/-! ### What an act does to the session -/

/-- The part of a recording that changes the disk: a file is copied into a new folder, and whatever the
folder held before is taken away. -/
def filed (l : Run.Layout) (folder source : Path) (file : String) : Job Path := do
  if ← Job.ask fun d => d.isThere folder then
    Job.changeInPart s!"clear directory {folder.text}" fun d => d.removeAll folder
  Job.changeInPart s!"create directory {folder.text}" fun d => d.makeAll folder
  let target := folder.child file
  Job.change s!"copy experiment {source.text} to {target.text}" fun d => d.copy source target
  Job.require s!"{folder.text} is outside the run directory" (l.relative? folder)

/-- A file is copied for an experiment only, and not if it has no name. -/
theorem copyRecording_cases (s : Session) (a : Address) (source : Path) (now : Moment) (d : Disk) :
    (∃ f, (s.copyRecording a source now).run d = (.error f, d)) ∨
    ∃ name state e file, s.script.tree.at? a = some (.leaf name state (.experiment e)) ∧
      source.fileName? = some file ∧
      (s.copyRecording a source now).run d =
        (filed s.layout (s.layout.experiments.child (Run.nameAt now name)) source file).run d := by
  rw [copyRecording]
  cases hc : s.script.tree.at? a with
  | none => exact Or.inl ⟨_, rfl⟩
  | some c =>
      rw [Job.require_some_bind]
      cases c with
      | sheet name state orientation items => exact Or.inl ⟨_, rfl⟩
      | leaf name state element =>
          cases element with
          | experiment e =>
              dsimp only [Component.name]
              cases hfile : source.fileName? with
              | none => exact Or.inl ⟨_, rfl⟩
              | some file =>
                  rw [Job.require_some_bind]
                  exact Or.inr ⟨name, state, e, file, rfl, rfl, rfl⟩
          | _ => exact Or.inl ⟨_, rfl⟩

/-- A recording interacts with the experiment if the file could be copied, and else leaves the
session. -/
theorem record_cases (s : Session) (a : Address) (source : Path) (now : Moment) (d : Disk) :
    (∃ f, ((s.copyRecording a source now).run d).1 = .error f ∧
      s.record a source now d = ((s, .error f), ((s.copyRecording a source now).run d).2)) ∨
    ∃ recorded, ((s.copyRecording a source now).run d).1 = .ok recorded ∧
      s.record a source now d =
        s.interact a (.record (.ofPath recorded)) ((s.copyRecording a source now).run d).2 := by
  rcases hcopy : (s.copyRecording a source now).run d with ⟨f | recorded, d'⟩
  · refine Or.inl ⟨f, rfl, ?_⟩
    simp only [record, bind, StateT.bind, hcopy]
    rfl
  · refine Or.inr ⟨recorded, rfl, ?_⟩
    simp only [record, bind, StateT.bind, hcopy]

/-- An interaction of a session is one of its script, and touches nothing else of it but the bookmark. -/
theorem interact_eq (s : Session) (a : Address) (i : Interaction) (d : Disk) :
    ∃ bookmark, (s.interact a i d).1.1 = { s with script := (s.script.interact a i).1, bookmark } := by
  rw [interact]
  cases s.script.interact a i with
  | mk script r =>
      cases r with
      | error f => exact ⟨s.bookmark, rfl⟩
      | ok changes => exact ⟨_, rfl⟩

/-- The path that is recorded is part of the progress of an experiment. -/
theorem recording?_eq (s : Session) (a : Address) :
    s.recording? a = (s.script.tree.at? a).bind fun c => c.progress.path? := by
  rw [recording?]
  congr 1
  funext c
  cases c with
  | leaf name state element => cases element <;> rfl
  | sheet name state orientation items => rfl

/-- An act leaves the session or interacts with its script, or goes to another page. -/
theorem act_cases (s : Session) (act : Act) (d : Disk) :
    (s.act act d).1.1.script = s.script ∧
      (∃ bookmark, (s.act act d).1.1 = { s with bookmark }) ∨
    ∃ a i bookmark, (s.act act d).1.1 =
      { s with script := (s.script.interact a i).1, bookmark } := by
  cases act with
  | interact a i =>
      obtain ⟨bookmark, h⟩ := s.interact_eq a i d
      exact Or.inr ⟨a, i, bookmark, h⟩
  | record a source now =>
      rcases s.record_cases a source now d with ⟨f, -, h⟩ | ⟨recorded, -, h⟩
      · rw [act, h]
        exact Or.inl ⟨rfl, s.bookmark, rfl⟩
      · obtain ⟨bookmark, hi⟩ :=
          s.interact_eq a (.record (.ofPath recorded)) ((s.copyRecording a source now).run d).2
        rw [act, h]
        exact Or.inr ⟨a, .record (.ofPath recorded), bookmark, hi⟩
  | goTo place =>
      rw [act]
      rcases s.goTo_cases place with ⟨-, h⟩ | ⟨-, f, h⟩ <;> rw [h]
      · exact Or.inl ⟨rfl, _, rfl⟩
      · exact Or.inl ⟨rfl, s.bookmark, rfl⟩
  | save => exact Or.inl ⟨rfl, s.bookmark, rfl⟩
  | writeReport => exact Or.inl ⟨rfl, s.bookmark, rfl⟩

theorem IsOf.act (h : s.IsOf c folder) (act : Act) (d : Disk) :
    (s.act act d).1.1.IsOf c folder := by
  rcases s.act_cases act d with ⟨-, bookmark, hs⟩ | ⟨a, i, bookmark, hs⟩ <;> rw [hs]
  · exact ⟨h.layout, h.named, h.ran⟩
  · obtain ⟨text, fresh, calls, hload, htree⟩ := h.ran
    refine ⟨h.layout, h.named, text, fresh, calls ++ [.interact a i], hload, ?_⟩
    rw [Script.after_concat]
    exact (Script.interact_of_tree_eq htree a i).2

/-- Every act leaves the bookmark in step with the tree. -/
theorem InStep.act (h : s.InStep) (act : Act) (d : Disk) : (s.act act d).1.1.InStep := by
  cases act with
  | interact a i => exact h.interact a i d
  | record a source now =>
      rcases s.record_cases a source now d with ⟨f, -, hr⟩ | ⟨recorded, -, hr⟩ <;> rw [Session.act, hr]
      · exact h
      · exact h.interact a (.record (.ofPath recorded)) _
  | goTo place =>
      rw [Session.act]
      rcases s.goTo_cases place with ⟨hlt, hgo⟩ | ⟨-, f, hgo⟩ <;> rw [hgo]
      · exact ⟨h.served, h.bookmark.chain, hlt⟩
      · exact h
  | save => exact h
  | writeReport => exact h

/-! ### Sessions as they are opened -/

theorem exists_text_of_load {p : Path} {script : Script} (h : (Source.load p).Yields script) :
    ∃ text, Source.script text = .ok script := by
  rw [Source.load] at h
  obtain ⟨text, -, h⟩ := h.of_bind
  exact ⟨text, h.of_within.of_ofAnswer⟩

/-- A script that is well configured is handed out as it was loaded. -/
theorem yields_load_of_loadChecked {p : Path} {script : Script}
    (h : (Source.loadChecked p).Yields script) : (Source.load p).Yields script := by
  rw [Source.loadChecked] at h
  obtain ⟨loaded, hload, h⟩ := h.of_bind
  dsimp only [Script.check] at h
  obtain ⟨_, hcheck, h⟩ := h.of_bind
  have hok : loaded.tree.check = .ok _ := ofScript_eq_ok_iff.1 hcheck.of_within.of_ofAnswer
  cases h.of_pure
  rwa [hok, Script.remembering_ok]

theorem isOf_of_start {source : Path} (h : (start c source folder).Yields s) :
    s.IsOf c folder := by
  rw [start] at h
  obtain ⟨_, -, h⟩ := h.of_bind
  obtain ⟨_, -, h⟩ := h.of_bind
  have h := h.of_cleaning
  rw [openNew] at h
  obtain ⟨name, hname, h⟩ := h.of_bind
  obtain ⟨fresh, hload, h⟩ := h.of_bind
  obtain ⟨text, htext⟩ := exists_text_of_load (yields_load_of_loadChecked hload)
  cases h.of_pure
  have hname : source.fileName? = some name := by
    obtain ⟨_, _, hname⟩ := hname
    exact (Job.run_require_eq_ok_iff.1 hname).1
  have htree : (attached c fresh folder source name).script.tree = fresh.tree := rfl
  exact ⟨rfl, Or.inl (Path.isPlain_of_fileName? hname), text, fresh, [.start], htext,
    (Script.start_of_tree_eq htree).2⟩

theorem isOf_of_resume (h : (resume c folder).Yields s) : s.IsOf c folder := by
  rw [resume] at h
  obtain ⟨a, -, h⟩ := h.of_bind
  obtain ⟨name, -, h⟩ := h.of_bind
  obtain ⟨fresh, hload, h⟩ := h.of_bind
  obtain ⟨text, htext⟩ := exists_text_of_load hload
  obtain ⟨_, -, h⟩ := h.of_bind
  cases h.of_pure
  exact ⟨rfl, Or.inr rfl, text, fresh, [.load a], htext, rfl⟩

theorem Reached.isOf (h : Reached c folder s d) : s.IsOf c folder := by
  induction h with
  | started _ h => exact isOf_of_start ⟨_, _, h⟩
  | resumed h => exact isOf_of_resume ⟨_, _, h⟩
  | acted _ a ih => exact ih.act a _

/-! ### What is known of the tree -/

theorem IsOf.isContained (h : s.IsOf c folder) : s.script.tree.IsContained := by
  obtain ⟨text, fresh, calls, hload, htree⟩ := h.ran
  rw [htree]
  exact Script.Made.isContained_after (.loaded hload) calls

theorem IsOf.isWritten (h : s.IsOf c folder) :
    s.script.tree.IsWritten (Json.depthLimit - 1) := by
  obtain ⟨text, fresh, calls, hload, htree⟩ := h.ran
  rw [htree]
  exact (Source.written_of_script hload).2.of_withoutChanges_eq
    (Script.withoutChanges_after fresh calls)

end Session

end GuidedLab
