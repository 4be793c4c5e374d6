import GuidedLab.Proofs.Session.Saved

/-!
# Sessions between two runs of the program

A session that was resumed and then answered, ticked or turned over is the session of its script and its
folder with a tree and a bookmark, its questions are as optional as they were written, and what is
recorded in it is written as texts (`Session.IsResumed`). Nothing else of it is lost when it is saved
and the program ends: a folder that keeps such a session is resumed with that very session
(`Kept.resume_eq`).

Such a session can always be saved where one was kept before, and saving it does nothing but replace the
state (`Settled.exists_save`).
-/

namespace GuidedLab

open Disk (ChangesBelow Holds Refiles)

namespace Tree

/-- A tree is what a snapshot does not hold together with the progress of every part. -/
theorem eq_of_withoutProgress_eq {t u : Tree} (h : t.withoutProgress = u.withoutProgress)
    (same : ∀ k p, (t.part? k p).map Component.progress = (u.part? k p).map Component.progress) :
    t = u :=
  eq_of_withoutChanges_eq (withoutChanges_eq_of_withoutProgress_eq h) same
    (optionalAt?_eq_of_withoutProgress_eq h)

theorem withoutProgress_of_respond? {t u : Tree} {a : Address} {i : Interaction}
    {changes : List Change} (h : t.respond? a i = .ok (u, changes))
    (hi : ∀ flag, i ≠ .optional flag) : u.withoutProgress = t.withoutProgress := by
  obtain ⟨c, d, itemChanges, hc, hd, rfl, -⟩ := respond?_eq_ok_iff.1 h
  exact withoutProgress_set hc ((Component.respond?_eq_ok_iff.1 hd).withoutProgress_eq hi)

theorem records_of_respond? {P : RawPath → Prop} {t u : Tree} {a : Address} {i : Interaction}
    {changes : List Change} (h : t.respond? a i = .ok (u, changes)) (ht : t.Records P)
    (hi : ∀ path, i ≠ .record path) : u.Records P := by
  obtain ⟨c, d, itemChanges, hc, hd, rfl, -⟩ := respond?_eq_ok_iff.1 h
  have hrecords : c.Every (Component.Records P) := ht c (mem_components_iff.2 ⟨_, hc⟩)
  exact records_set ht _
    ((Component.respond?_eq_ok_iff.1 hd).every_records hrecords fun path e => absurd e (hi path))

end Tree

namespace Session

variable {c : Config} {folder : Path} {name text : String} {s t : Session} {d e base : Disk}

theorem records_eq_false_iff {i : Interaction} : records i = false ↔ ∀ path, i ≠ .record path := by
  cases i <;> simp [records]

/-- The archive of a session tells of its tree, its name and its place. -/
theorem archive_eq (tree : t.script.tree = s.script.tree) (named : t.name = s.name)
    (bookmark : t.bookmark = s.bookmark) : t.archive = s.archive := by
  rw [archive, archive, Script.save, Script.save, tree, named, bookmark]

/-- A session that is given by its script and its folder, apart from a tree and a bookmark, and of which
nothing is lost in a snapshot. -/
structure IsResumed (c : Config) (folder : Path) (name text : String) (s : Session) : Prop where
  works : s.WorksOn c folder name text
  lasting : ∀ fresh, Source.script text = .ok fresh →
    s.script.tree.withoutProgress = fresh.tree.withoutProgress
  written : s.script.tree.Records RawPath.IsWritten
  attached : ∀ fresh, Source.script text = .ok fresh → ∃ tree bookmark,
    s = { attached c { fresh with tree } folder (folder.child name) name with bookmark }

theorem IsResumed.eq (h : s.IsResumed c folder name text) (h' : t.IsResumed c folder name text)
    (tree : t.script.tree = s.script.tree) (bookmark : t.bookmark = s.bookmark) : t = s := by
  obtain ⟨fresh, -, hload, -⟩ := h.works.ran
  obtain ⟨u, b, rfl⟩ := h.attached fresh hload
  obtain ⟨u', b', rfl⟩ := h'.attached fresh hload
  obtain rfl : u' = u := tree
  obtain rfl : b' = b := bookmark
  rfl

/-- A session whose questions are as optional as they were written, and in which nothing but texts is
recorded, is resumed as it is. -/
theorem Kept.exists_isResumed (h : Kept c folder name text s d) (fits : text.utf8ByteSize < memoryLimit)
    (lasting : ∀ fresh, Source.script text = .ok fresh →
      s.script.tree.withoutProgress = fresh.tree.withoutProgress)
    (written : s.script.tree.Records RawPath.IsWritten) :
    ∃ u, (resume c folder).run d = (.ok u, d) ∧ u.IsResumed c folder name text ∧
      u.script.tree = s.script.tree ∧ u.bookmark = s.bookmark ∧ Kept c folder name text u d := by
  obtain ⟨u, fresh, hresume, hworks, hresumes, hload, hrest, hu⟩ := h.exists_resume fits
  have hshows := hresumes.showsAs written
  have htree : u.script.tree = s.script.tree :=
    Tree.eq_of_withoutProgress_eq (hrest.trans (lasting fresh hload).symm) hshows.progress
  have harchive : u.archive = s.archive :=
    archive_eq htree (hworks.named.trans h.works.named.symm) hshows.bookmark
  refine ⟨u, hresume, ⟨hworks, ?_, ?_, ?_⟩, htree, hshows.bookmark,
    ⟨hworks, h.opens, h.state, h.script, ?_, h.copied⟩⟩
  · intro other hother
    rw [htree]
    exact lasting other hother
  · rw [htree]
    exact written
  · intro other hother
    rw [hload] at hother
    cases hother
    exact ⟨_, _, hu⟩
  · rw [harchive]
    exact h.archived

/-- A session between two runs is resumed as the session that it is. -/
theorem Kept.resume_eq (h : Kept c folder name text s d) (fits : text.utf8ByteSize < memoryLimit)
    (resumed : s.IsResumed c folder name text) : (resume c folder).run d = (.ok s, d) := by
  obtain ⟨u, hresume, hu, htree, hbookmark, -⟩ := h.exists_isResumed fits resumed.lasting resumed.written
  rw [hresume, resumed.eq hu htree hbookmark]

/-- An interaction that records nothing and leaves the optional flags has nothing to do with the disk, and
leads to a session between two runs. -/
theorem IsResumed.interact (h : s.IsResumed c folder name text) (a : Address) {i : Interaction}
    (record : records i = false) (optional : ∀ flag, i ≠ .optional flag) :
    (∃ f u, ∀ d, s.interact a i d = ((u, .error f), d)) ∨
    ∃ t changes, (∀ d, s.interact a i d = ((t, .ok changes), d)) ∧
      t.IsResumed c folder name text := by
  rcases s.script.interact_cases a i with ⟨tree, changes, hr, hs⟩ | ⟨f, -, hs⟩
  · have hrun : ∀ d, s.interact a i d =
        ((s.following { s.script with tree } changes, .ok changes), d) := by
      intro d
      rw [Session.interact, hs]
      dsimp only
      rw [afterwards, record]
      split <;> rfl
    refine Or.inr ⟨_, changes, hrun, ?_, ?_, ?_, ?_⟩
    · have hworks := h.works.act (.interact a i) ⟨.nil, []⟩
      rwa [act, hrun] at hworks
    · intro fresh hload
      exact (Tree.withoutProgress_of_respond? hr optional).trans (h.lasting fresh hload)
    · exact Tree.records_of_respond? hr h.written (records_eq_false_iff.1 record)
    · intro fresh hload
      obtain ⟨u, b, rfl⟩ := h.attached fresh hload
      exact ⟨tree, _, rfl⟩
  · refine Or.inl ⟨.of (.fault f), { s with script := { s.script with lastError := f.message } }, ?_⟩
    intro d
    rw [Session.interact, hs]

theorem IsResumed.goTo (h : s.IsResumed c folder name text) {place : Nat}
    (hgo : s.goTo place = .ok t) : t.IsResumed c folder name text := by
  have hworks := h.works.act (.goTo place) ⟨.nil, []⟩
  rw [act, hgo] at hworks
  have ht : t = { s with bookmark := { s.bookmark with current := place } } := by
    rcases s.goTo_cases place with ⟨-, hok⟩ | ⟨-, f, herror⟩
    · rw [hgo] at hok
      injection hok
    · rw [hgo] at herror
      cases herror
  subst ht
  refine ⟨hworks, h.lasting, h.written, ?_⟩
  intro fresh hload
  obtain ⟨u, b, rfl⟩ := h.attached fresh hload
  exact ⟨u, _, rfl⟩

/-- A disk on which a run rests between two runs of the program: it keeps the session as the program opens
it, and is an earlier disk with nothing but another state. -/
structure Settled (c : Config) (folder : Path) (name text : String) (base : Disk) (s : Session)
    (d : Disk) : Prop where
  resumed : s.IsResumed c folder name text
  kept : Kept c folder name text s d
  files : ∀ a, s.archive = .ok a →
    Refiles (folder.positionFrom base.working) c.state (Run.stateText a) base d

/-- Where a session was kept another one of its script is saved, whatever was done in between. -/
theorem Settled.exists_save (h : Settled c folder name text base s d) (names : c.Names)
    (bare : folder.trimmed = folder) (draft : Holds folder (c.state ++ Job.draftEnding))
    (apart : name ≠ c.state) (apartDraft : name ≠ c.state ++ Job.draftEnding)
    (resumed : t.IsResumed c folder name text) :
    ∃ e, t.save.run d = (.ok (), e) ∧ ChangesBelow (folder.positionFrom d.working) d e ∧
      Settled c folder name text base t e := by
  obtain ⟨a, -, -, ha, -⟩ := h.kept.works.exists_archive
  obtain ⟨b, -, -, hb, -⟩ := resumed.works.exists_archive
  have hworking : d.working = base.working := (h.files a ha).working
  have hdraft : d.find? (folder.positionFrom d.working ++ [c.state ++ Job.draftEnding]) = none := by
    rw [hworking]
    exact (h.files a ha).draft
  have hthere : d.isThere (t.layout.script t.name) = true := by
    rw [resumed.works.layout, resumed.works.named]
    show d.isThere (folder.child name) = true
    rw [h.kept.opens.isThere_child h.kept.script, h.kept.copied]
    rfl
  obtain ⟨e, hwrite⟩ := Job.exists_replaceText h.kept.opens bare h.kept.state draft
    (by rw [h.kept.archived a ha]; nofun) (by rw [hdraft]; nofun) (Run.stateText b)
  have hsave : t.save.run d = (.ok (), e) := by
    rw [save]
    refine Job.run_bind_eq_ok_iff.2 ⟨b, d, Job.run_within_eq_ok_iff.2
      (Job.run_ofAnswer_eq_ok_iff.2 ⟨ofScript_eq_ok_iff.2 hb, rfl⟩), ?_⟩
    refine Job.run_bind_eq_ok_iff.2 ⟨true, d, Job.run_ask_eq_ok_iff.2 ⟨hthere, rfl⟩, ?_⟩
    rw [resumed.works.layout]
    exact hwrite
  obtain ⟨hkept, hbelow, -⟩ := kept_of_save resumed.works h.kept.opens names.state
    (Or.inl h.kept.copied) apart apartDraft hsave
  refine ⟨e, hsave, hbelow, resumed, hkept, ?_⟩
  · intro b' hb'
    rw [hb] at hb'
    cases hb'
    obtain ⟨-, -, -, hfiles⟩ :=
      Job.replaceText_eq_ok h.kept.opens names.state.filled names.state.whole hwrite
    rw [hworking] at hfiles
    exact (h.files a ha).trans hfiles

end Session

end GuidedLab
