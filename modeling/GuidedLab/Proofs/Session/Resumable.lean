import GuidedLab.Proofs.Session.Saved

/-!
# Saved runs can be resumed

A session that is started in a new folder and worked on has the text of its script at hand at every
moment: in the folder, or where it came from (`Underway`). So a save that succeeds leaves the session
kept, and later acts that leave the session keep it so. What is needed for that is that the name of the
script is not a name that the configuration gives to the state, the report or one of their drafts, and
that the state is not the draft of the report (`resumable`). Validity asks for none of this.
-/

namespace GuidedLab

open Disk (ChangesBelow Holds Refiles Replaces)
open GuidedLab.Path (IsPlain)

namespace Session

variable {c : Config} {folder source : Path} {name text : String} {s t u : Session} {d d' e : Disk}

theorem openNew_eq_ok (h : (openNew c source folder).run d = (.ok s, d')) :
    d' = d ∧ ∃ name text fresh, source.fileName? = some name ∧ d.readText source = .ok text ∧
      Source.script text = .ok fresh ∧ s = (attached c fresh folder source name).atStart := by
  rw [openNew] at h
  obtain ⟨name, d₁, hrequire, hrest⟩ := Job.run_bind_eq_ok_iff.1 h
  obtain ⟨hname, rfl⟩ := Job.run_require_eq_ok_iff.1 hrequire
  obtain ⟨fresh, d₂, hload, hpure⟩ := Job.run_bind_eq_ok_iff.1 hrest
  obtain ⟨rfl, text, hread, hscript⟩ := Source.load_eq_ok (Source.loadChecked_eq_ok hload)
  obtain ⟨rfl, rfl⟩ := Job.run_pure_eq_ok_iff.1 hpure
  exact ⟨rfl, name, text, fresh, hname, hread, hscript, rfl⟩

/-- What a start has done when it succeeds. -/
theorem start_eq_ok (h : (start c source folder).run d = (.ok s, e)) :
    ∃ name text fresh, source.fileName? = some name ∧ e.readText source = .ok text ∧
      Source.script text = .ok fresh ∧ s = (attached c fresh folder source name).atStart := by
  rw [start] at h
  obtain ⟨isNew, d₁, -, h⟩ := Job.run_bind_eq_ok_iff.1 h
  obtain ⟨_, d₂, -, h⟩ := Job.run_bind_eq_ok_iff.1 h
  rw [Job.run_cleaning] at h
  split at h
  · next t d₃ hopen =>
      cases h
      obtain ⟨rfl, hrest⟩ := openNew_eq_ok hopen
      exact hrest
  · cases h

theorem worksOn_atStart {fresh : Script} (plain : IsPlain name)
    (loaded : Source.script text = .ok fresh) :
    (attached c fresh folder source name).atStart.WorksOn c folder name text := by
  refine ⟨rfl, rfl, plain, ⟨fresh, [.start], loaded, ?_, ?_⟩,
    inStep_atStart _ (Option.some_ne_none _) ?_⟩
  · show ((attached c fresh folder source name).script.start).1.title = fresh.title
    rcases (attached c fresh folder source name).script.start_cases with h | ⟨_, -, -, h⟩ <;> rw [h]
    · rfl
    · rfl
  · exact (Script.start_of_tree_eq (s := (attached c fresh folder source name).script) (t := fresh)
      rfl).2
  · have filled := Source.isEmpty_of_script loaded
    exact filled

/-- A session that is worked on in a new folder, with the text of its script at hand. -/
structure Underway (c : Config) (folder source : Path) (name text : String) (s : Session) (d : Disk) :
    Prop where
  works : s.WorksOn c folder name text
  opens : d.Opens folder
  origin : s.source = source
  outside : ¬ (folder.positionFrom d.working <+: source.positionFrom d.working ∧
    source.positionFrom d.working ≠ folder.positionFrom d.working)
  original : d.find? (source.positionFrom d.working) = some (.file text.toUTF8)
  copy : d.find? (folder.positionFrom d.working ++ [name]) = none ∨
    d.find? (folder.positionFrom d.working ++ [name]) = some (.file text.toUTF8)

theorem Underway.atHand (h : Underway c folder source name text s d) :
    AtHand folder name text s d := by
  rcases h.copy with hnone | hfile
  · refine Or.inr ⟨hnone, ?_⟩
    rw [h.origin]
    exact h.original
  · exact Or.inl hfile

theorem Underway.of_changesBelow (h : Underway c folder source name text s d)
    (works : t.WorksOn c folder name text) (origin : t.source = source)
    (hc : ChangesBelow (folder.positionFrom d.working) d e)
    (copy : e.find? (folder.positionFrom d.working ++ [name]) = none ∨
      e.find? (folder.positionFrom d.working ++ [name]) = some (.file text.toUTF8)) :
    Underway c folder source name text t e := by
  refine ⟨works, h.opens.of_changesBelow hc, origin, ?_, ?_, ?_⟩
  · rw [hc.working]
    exact h.outside
  · rw [hc.working, hc.find?_eq _ h.outside]
    exact h.original
  · rw [hc.working]
    exact copy

/-- A session at its start in a folder that has nothing in it is under way. -/
theorem underway_atStart {fresh : Script} (made : d.makeAll folder = (e, .ok ()))
    (empty : ∀ q, folder.positionFrom d.working <+: q → q ≠ folder.positionFrom d.working →
      d.find? q = none)
    (above : folder.parent? ≠ none) (direct : folder.IsDirect d.working)
    (named : source.fileName? = some name) (read : e.readText source = .ok text)
    (loaded : Source.script text = .ok fresh) :
    d.find? (source.positionFrom d.working) = some (.file text.toUTF8) ∧
      Underway c folder source name text (attached c fresh folder source name).atStart e := by
  have hmakes := Disk.makes_makeAll d folder
  rw [made] at hmakes
  have hworking : e.working = d.working := hmakes.working
  have hfile := Disk.find?_of_readText read
  obtain ⟨p, hplace⟩ := Disk.exists_place_of_makeAll made above
  obtain rfl : p = folder.positionFrom e.working := (Disk.place_eq_ok hplace).1
  have hbefore : d.find? (source.positionFrom d.working) = some (.file text.toUTF8) := by
    rw [hmakes.find?_eq_file_iff, hworking] at hfile
    exact hfile
  refine ⟨hbefore, worksOn_atStart (Path.isPlain_of_fileName? named) loaded, ⟨hplace, ?_⟩, rfl, ?_,
    hfile, Or.inl ?_⟩
  · rw [hworking]
    exact direct
  · rintro ⟨hpre, hne⟩
    rw [hworking] at hpre hne
    rw [empty _ hpre hne] at hbefore
    cases hbefore
  · -- only folders on the way to the folder were made
    have hpre := List.prefix_append (folder.positionFrom d.working) [name]
    have hne := Disk.append_ne_self (List.cons_ne_nil name []) (folder.positionFrom d.working)
    rw [hworking]
    rcases hmakes.find?_or (folder.positionFrom d.working ++ [name]) with hq | ⟨-, -, hq⟩
    · rw [hq]
      exact empty _ hpre hne
    · exact absurd ⟨hpre, hne⟩ (direct _ hq)

/-- A start in a folder that was not there leaves the session under way. -/
theorem underway_of_start (there : d.find? d.working = some .folder)
    (new : d.find? (folder.positionFrom d.working) = none) (direct : folder.IsDirect d.working)
    (named : source.fileName? = some name) (h : (start c source folder).run d = (.ok s, e)) :
    ∃ text, d.find? (source.positionFrom d.working) = some (.file text.toUTF8) ∧
      Underway c folder source name text s e := by
  obtain ⟨other, text, fresh, hname, hread, hload, rfl⟩ := start_eq_ok h
  rw [named] at hname
  cases hname
  refine ⟨text, underway_atStart (makeAll_of_start h) ?_ ?_ direct named hread hload⟩
  · exact fun q hpre hne => Disk.find?_eq_none_of_below hpre hne.symm (by rw [new]; nofun)
  · intro hnone
    rw [(reaches_of_parent? there hnone).find?] at new
    cases new

/-! ### Acts that are not refused -/

/-- Sessions of one script have trees of one shape. -/
theorem WorksOn.shape_eq (h : s.WorksOn c folder name text) (h' : t.WorksOn c folder name text) :
    t.script.tree.pages.shape = s.script.tree.pages.shape := by
  obtain ⟨fresh, calls, hload, -, htree⟩ := h.ran
  obtain ⟨fresh', calls', hload', -, htree'⟩ := h'.ran
  rw [hload] at hload'
  cases hload'
  have hlasting : t.script.tree.withoutChanges = s.script.tree.withoutChanges := by
    rw [htree, htree', fresh.withoutChanges_after, fresh.withoutChanges_after]
  exact Tree.shape_eq_of_map_eq hlasting

/-- What is recorded for an experiment is shown. -/
theorem ShowsAs.recording?_eq (h : s.ShowsAs t) (works : s.WorksOn c folder name text)
    (works' : t.WorksOn c folder name text) (a : Address) : t.recording? a = s.recording? a := by
  have hprogress := Tree.at?_map_eq_of_parts (works.shape_eq works') h.progress a
  have hpath : ∀ u : Session, u.recording? a =
      ((u.script.tree.at? a).map Component.progress).bind Progress.path? := by
    intro u
    rw [Session.recording?_eq, Option.bind_map]
    rfl
  rw [hpath, hpath, hprogress]

/-- What is recorded in the tree of a session is found as the recording of some address. -/
theorem records_of_recording? {P : RawPath → Prop}
    (h : ∀ a path, s.recording? a = some path → P path) : s.script.tree.Records P := by
  intro page hpage p c hc path hpath
  obtain ⟨node, hnode⟩ := Tree.mem_components_iff.1 hpage
  apply h ⟨node, p⟩
  rw [Session.recording?_eq, Tree.at?, hnode, Option.bind_some, hc, Option.bind_some, hpath]

/-- Whether an act copies a file into the folder of the run. -/
def Act.copies : Act → Bool
  | .record .. => true
  | _ => false

theorem source_act (s : Session) (act : Act) (d : Disk) : (s.act act d).1.1.source = s.source := by
  rcases s.act_cases act d with ⟨-, bookmark, hs⟩ | ⟨a, i, bookmark, hs⟩ <;> rw [hs]

theorem writeReport_eq_ok {p : Path} (h : s.writeReport.run d = (.ok p, d')) :
    (Job.replaceText s.layout.report s.script.report).run d = (.ok (), d') := by
  rw [writeReport] at h
  obtain ⟨_, e, hwithin, hpure⟩ := Job.run_bind_eq_ok_iff.1 h
  obtain ⟨-, rfl⟩ := Job.run_pure_eq_ok_iff.1 hpure
  exact Job.run_within_eq_ok_iff.1 hwithin

/-- What an act that was not refused has done to the disk: nothing, or it took a replaced recording away,
saved the session or wrote the report. -/
theorem disk_act_cases (act : Act) (copies : act.copies = false)
    (done : (s.act act d).1.2 = .ok ()) :
    (s.act act d).2 = d ∨
    (∃ a q, (s.act act d).1.1.recording? a ≠ s.recording? a ∧
      s.layout.folder.positionFrom d.working <+: q ∧
      q ≠ s.layout.folder.positionFrom d.working ∧ Replaces q none d (s.act act d).2) ∨
    (s.act act d).1.1 = s ∧ s.save.run d = (.ok (), (s.act act d).2) ∨
    (s.act act d).1.1 = s ∧
      (Job.replaceText s.layout.report s.script.report).run d = (.ok (), (s.act act d).2) := by
  cases act with
  | interact a i =>
      rcases s.disk_interact_eq_or a i d with hd | ⟨hne, q, hq⟩
      · exact Or.inl hd
      · exact Or.inr (Or.inl ⟨a, q, hne, hq⟩)
  | record a source now => cases copies
  | goTo place =>
      rw [act]
      rcases s.goTo_cases place with ⟨-, hgo⟩ | ⟨-, f, hgo⟩ <;> rw [hgo] <;> exact Or.inl rfl
  | save =>
      rw [act] at done ⊢
      cases hsave : s.save.run d with
      | mk r d' =>
          rw [hsave] at done
          cases done
          exact Or.inr (Or.inr (Or.inl ⟨rfl, rfl⟩))
  | writeReport =>
      rw [act] at done ⊢
      cases hreport : s.writeReport.run d with
      | mk r d' =>
          rw [hreport] at done
          obtain ⟨p, rfl, -⟩ := Success.map_eq_ok_iff.1 done
          exact Or.inr (Or.inr (Or.inr ⟨rfl, writeReport_eq_ok hreport⟩))

/-- A name that none of the files have that are written to the folder of a run. -/
structure Spared (c : Config) (name : String) : Prop where
  state : name ≠ c.state
  stateDraft : name ≠ c.state ++ Job.draftEnding
  report : name ≠ c.report
  reportDraft : name ≠ c.report ++ Job.draftEnding

/-- Work that is not refused leaves the text of the script at hand. -/
theorem Underway.act (h : Underway c folder source name text s d) (names : c.Names)
    (spared : Spared c name) (act : Act) (copies : act.copies = false)
    (done : (s.act act d).1.2 = .ok ()) :
    Underway c folder source name text (s.act act d).1.1 (s.act act d).2 := by
  have hworks := h.works.act act d
  have horigin := (s.source_act act d).trans h.origin
  have hfolder : s.layout.folder = folder := by
    rw [h.works.layout]
    rfl
  rcases disk_act_cases act copies done with hd | ⟨a, q, -, hpre, hne, hr⟩ | ⟨-, hsave⟩ | ⟨-, hreport⟩
  · refine h.of_changesBelow hworks horigin ?_ ?_ <;> rw [hd]
    · exact .refl _ d
    · exact h.copy
  · rw [hfolder] at hpre hne
    refine h.of_changesBelow hworks horigin (hr.changesBelow hpre hne) ?_
    rw [hr.find?_eq]
    split
    · exact Or.inl rfl
    · exact h.copy
  · obtain ⟨kept, hbelow, -⟩ := kept_of_save h.works h.opens names.state h.atHand spared.state
      spared.stateDraft hsave
    refine h.of_changesBelow hworks horigin hbelow (Or.inr ?_)
    rw [← hbelow.working]
    exact kept.copied
  · rw [h.works.layout] at hreport
    obtain ⟨-, -, -, hfiles⟩ :=
      Job.replaceText_eq_ok h.opens names.report.filled names.report.whole hreport
    refine h.of_changesBelow hworks horigin hfiles.changesBelow ?_
    rw [hfiles.find?_of_ne spared.report spared.reportDraft]
    exact h.copy

/-- A session that shows what a kept one shows is kept or still shows that after an act that changes
nothing of it. -/
theorem Underway.exists_kept_act (h : Underway c folder source name text t d) (names : c.Names)
    (spared : Spared c name) (apart : c.state ≠ c.report ++ Job.draftEnding)
    (kept : Kept c folder name text s d) (shown : s.ShowsAs t) (act : Act)
    (copies : act.copies = false) (done : (t.act act d).1.2 = .ok ())
    (rests : t.ShowsAs (t.act act d).1.1) :
    ∃ u, Kept c folder name text u (t.act act d).2 ∧ u.ShowsAs (t.act act d).1.1 := by
  rcases disk_act_cases act copies done with
    hd | ⟨a, q, hne, -⟩ | ⟨hsame, hsave⟩ | ⟨hsame, hreport⟩
  · rw [hd]
    exact ⟨s, kept, shown.trans rests⟩
  · exact absurd (rests.recording?_eq h.works (h.works.act act d) a) hne
  · rw [hsame]
    obtain ⟨hkept, -⟩ := kept_of_save h.works h.opens names.state h.atHand spared.state
      spared.stateDraft hsave
    exact ⟨t, hkept, .refl t⟩
  · rw [h.works.layout] at hreport
    obtain ⟨-, -, -, hfiles⟩ :=
      Job.replaceText_eq_ok h.opens names.report.filled names.report.whole hreport
    refine ⟨s, ⟨kept.works, kept.opens.of_changesBelow hfiles.changesBelow, kept.state, kept.script,
      ?_, ?_⟩, shown.trans rests⟩
    · intro a ha
      rw [hfiles.working, hfiles.find?_of_ne names.distinct apart]
      exact kept.archived a ha
    · rw [hfiles.working, hfiles.find?_of_ne spared.report spared.reportDraft]
      exact kept.copied

/-! ### Work -/

/-- Acts that are carried out one after the other. None of them is refused or copies a file, and each
leads from a session to a related one. -/
inductive Worked (R : Session → Session → Prop) : Session → Disk → Session → Disk → Prop where
  | idle (s : Session) (d : Disk) : Worked R s d s d
  | acted {s t : Session} {d e : Disk} (h : Worked R s d t e) (act : Act)
      (copies : act.copies = false) (done : (t.act act e).1.2 = .ok ())
      (related : R t (t.act act e).1.1) : Worked R s d (t.act act e).1.1 (t.act act e).2

theorem Underway.of_worked {R : Session → Session → Prop} (names : c.Names)
    (spared : Spared c name) (work : Worked R s d t e)
    (h : Underway c folder source name text s d) : Underway c folder source name text t e := by
  induction work with
  | idle d => exact h
  | acted work act copies done related ih => exact (ih h).act names spared act copies done

/-- A session that was saved is kept while what it shows stays. -/
theorem exists_kept_of_worked (names : c.Names) (spared : Spared c name)
    (apart : c.state ≠ c.report ++ Job.draftEnding) (work : Worked ShowsAs s d t e)
    (h : Underway c folder source name text s d) (kept : Kept c folder name text s d) :
    ∃ u, Kept c folder name text u e ∧ u.ShowsAs t := by
  induction work with
  | idle d => exact ⟨s, kept, .refl s⟩
  | acted work act copies done rests ih =>
      obtain ⟨u, hkept, shown⟩ := ih h kept
      exact (Underway.of_worked names spared work h).exists_kept_act names spared apart hkept shown act
        copies done rests

/-- A saved run is resumed. The configuration is valid, and the name of the script is none of those that
it gives to the state, the report and their drafts; nor is the state named as the draft of the report.
The folder of the run was not there, its path takes no way through it, and the file of the script is no
larger than a memory can be. After a start, work, a save and acts that change nothing of what is shown,
the run is resumed without a change of the disk, at the same chain and page and with the same states and
answers. Of each recorded path the text is shown again. If all that is recorded is written as texts,
that is the path itself, and the session shows what it showed. -/
theorem resumable {c : Config} (valid : c.validate = .ok ()) {source folder : Path} {name : String}
    (named : source.fileName? = some name) (spared : Spared c name)
    (apart : c.state ≠ c.report ++ Job.draftEnding) {d₀ d₁ d₂ d₃ d₄ : Disk} {s₁ s₂ s₄ : Session}
    (there : d₀.find? d₀.working = some .folder)
    (new : d₀.find? (folder.positionFrom d₀.working) = none) (direct : folder.IsDirect d₀.working)
    (started : (start c source folder).run d₀ = (.ok s₁, d₁))
    (fits : ∀ content, d₀.find? (source.positionFrom d₀.working) = some (.file content) →
      content.size < memoryLimit)
    (worked : Worked (fun _ _ => True) s₁ d₁ s₂ d₂) (saved : s₂.save.run d₂ = (.ok (), d₃))
    (rested : Worked ShowsAs s₂ d₃ s₄ d₄) :
    ∃ u, (resume c folder).run d₄ = (.ok u, d₄) ∧ s₄.ResumesAs u ∧
      ((∀ a path, s₄.recording? a = some path → path.IsWritten) → s₄.ShowsAs u) := by
  have names := Config.names_of_validate valid
  obtain ⟨text, hfile, hstarted⟩ := underway_of_start there new direct named started
  have hworked := Underway.of_worked names spared worked hstarted
  obtain ⟨hkept, -⟩ := kept_of_save hworked.works hworked.opens names.state hworked.atHand spared.state
    spared.stateDraft saved
  have hsaved : Underway c folder source name text s₂ d₃ := by
    have := hworked.act names spared .save rfl (by rw [act, saved])
    rw [act, saved] at this
    exact this
  obtain ⟨s₃, hkept₃, shown⟩ := exists_kept_of_worked names spared apart rested hsaved hkept
  obtain ⟨u, -, hresume, -, hshows, -⟩ := hkept₃.exists_resume (fits _ hfile)
  have hresumes := shown.symm.trans_resumesAs hshows
  exact ⟨u, hresume, hresumes, fun written => hresumes.showsAs (records_of_recording? written)⟩

/-- The box on the first page was ticked. -/
def ticked : Session × Disk :=
  let r := fall.act (.interact ⟨0, []⟩ (.check true)) fallStarted
  (r.1.1, r.2)

/-- Then the second page was selected. -/
def turned : Session × Disk :=
  let r := ticked.1.act (.goTo 1) ticked.2
  (r.1.1, r.2)

theorem size_fall : ∀ content, twoPages.find? ((⟨"fall.json"⟩ : Path).positionFrom twoPages.working) =
    some (.file content) → content.size < memoryLimit := by
  rintro content ⟨⟩
  decide +kernel

theorem resumable_fall : ∃ d₃ u, turned.1.save.run turned.2 = (.ok (), d₃) ∧
    (resume .standard ⟨"run"⟩).run d₃ = (.ok u, d₃) ∧ u.bookmark = ⟨[0, 1], 1⟩ := by
  have hsaved : (turned.1.save.run turned.2).1.toOption = some () := by rfl
  have hsaved := Job.run_of_toOption hsaved
  have hspared : Spared .standard "fall.json" := ⟨by decide, by decide, by decide, by decide⟩
  have hworked : Worked (fun _ _ => True) fall fallStarted turned.1 turned.2 := by
    refine .acted (.acted (.idle _ _) (.interact ⟨0, []⟩ (.check true)) rfl ?_ trivial) (.goTo 1) rfl ?_
      trivial
    · exact Success.eq_ok_of_isSome (by rfl)
    · exact Success.eq_ok_of_isSome (by rfl)
  have hnew : twoPages.find? ((⟨"run"⟩ : Path).positionFrom twoPages.working) = none := by rfl
  obtain ⟨u, hresume, hshows, -⟩ := resumable (by rfl) (by decide) hspared (by decide) (by rfl) hnew
    (Path.isDirect_of_down (by decide) _) start_fall size_fall hworked hsaved (.idle _ _)
  have hbookmark : turned.1.bookmark = ⟨[0, 1], 1⟩ := by rfl
  exact ⟨_, u, hsaved, hresume, hshows.bookmark.trans hbookmark⟩

/-- A resume that succeeds has read the state and the script that the state names. -/
theorem resume_eq_ok (h : (resume c folder).run d = (.ok s, d')) :
    ∃ a name text fresh, (Run.loadState (folder.child c.state)).run d = (.ok a, d) ∧
      a.text? nameKey = some name ∧ d.readText (folder.child name) = .ok text ∧
      Source.script text = .ok fresh := by
  rw [resume] at h
  obtain ⟨a, d₁, hstate, hrest⟩ := Job.run_bind_eq_ok_iff.1 h
  have hrun : (Run.loadState (folder.child c.state)).run d = (.ok a, d₁) := hstate
  have hsame := ((reads_loadState (d := d) (e := d) (p := folder.child c.state) rfl).run_eq).1
  rw [hrun] at hsame
  obtain rfl : d₁ = d := hsame
  obtain ⟨name, d₂, hrequire, hloaded⟩ := Job.run_bind_eq_ok_iff.1 hrest
  obtain ⟨hname, rfl⟩ := Job.run_require_eq_ok_iff.1 hrequire
  obtain ⟨fresh, d₃, hload, -⟩ := Job.run_bind_eq_ok_iff.1 hloaded
  obtain ⟨-, text, hread, hscript⟩ := Source.load_eq_ok hload
  exact ⟨a, name, text, fresh, hrun, (Option.filter_eq_some_iff.1 hname).1, hread, hscript⟩

/-- A script of one question, in a file that is named as the reports are. -/
def answersScript : Disk :=
  let text := "\x7b\"title\":\"T\",\"pages\":[\x7b\"component\":\x7b\"type\":\"text_question\"," ++
    "\"name\":\"q\",\"text\":\"?\"\x7d\x7d]\x7d"
  ⟨.file "answers.md" text.toUTF8 .nil, []⟩

/-- The session of the script of `answersScript`. -/
def answers : Session :=
  (attached .standard (.new "T" (.new (.ofTextQuestion "q" "?" false))) ⟨"run"⟩ ⟨"answers.md"⟩
    "answers.md").atStart

/-- A report that is named as the script takes the script away. -/
theorem not_resumable : ¬ ∀ (c : Config) (source folder : Path) (d₀ d₁ d₂ d₃ d₄ : Disk)
    (s₁ s₂ s₄ : Session), c.validate = .ok () → d₀.find? d₀.working = some .folder →
      d₀.find? (folder.positionFrom d₀.working) = none →
      (start c source folder).run d₀ = (.ok s₁, d₁) → Worked (fun _ _ => True) s₁ d₁ s₂ d₂ →
      s₂.save.run d₂ = (.ok (), d₃) → Worked ShowsAs s₂ d₃ s₄ d₄ →
      ∃ u, (resume c folder).run d₄ = (.ok u, d₄) ∧ s₄.ResumesAs u := by
  intro h
  let started := (answersScript.makeAll ⟨"run"⟩).1
  have hstart : (start .standard ⟨"answers.md"⟩ ⟨"run"⟩).run answersScript = (.ok answers, started) := by
    refine run_start_of_file (p := ["answers.md"]) (by decide) (by rfl) (by rfl) (by rfl) ?_ (by rfl)
    apply Source.script_of_ofList
    · repeat' apply Source.append_eq_ofList
      all_goals exact rfl
    · decide +kernel
  have hnew : answersScript.find? ((⟨"run"⟩ : Path).positionFrom answersScript.working) = none := by
    decide +kernel
  obtain ⟨saved, reported, hsave, hreport⟩ : ∃ saved reported,
      answers.save.run started = (.ok (), saved) ∧
        answers.writeReport.run saved = (.ok ⟨"run/answers.md"⟩, reported) :=
    ⟨_, _, Job.run_of_toOption (by decide +kernel), Job.run_of_toOption (by decide +kernel)⟩
  have hact : answers.act .writeReport saved = ((answers, .ok ()), reported) := by
    rw [act, hreport]
    rfl
  have hrest : Worked ShowsAs answers saved answers reported := by
    have := Worked.acted (R := ShowsAs) (.idle answers saved) .writeReport rfl (by rw [hact])
      (by rw [hact]; exact .refl _)
    rwa [hact] at this
  obtain ⟨u, hresume, -⟩ := h .standard ⟨"answers.md"⟩ ⟨"run"⟩ answersScript started started saved
    reported answers answers answers rfl rfl hnew hstart (.idle _ _) hsave hrest
  obtain ⟨a, name, text, fresh, hstate, hname, hread, hscript⟩ := resume_eq_ok hresume
  -- the state still holds the archive, and the script has become the report
  have hnamed : (⟨"answers.md"⟩ : Path).fileName? = some "answers.md" := by decide
  obtain ⟨_, -, hunder⟩ := underway_of_start (by rfl) hnew (Path.isDirect_of_down (by decide) _) hnamed
    hstart
  obtain ⟨hkept, -⟩ := kept_of_save hunder.works hunder.opens ⟨by decide, by decide⟩ hunder.atHand
    (by decide) (by decide) hsave
  have hwrite := writeReport_eq_ok hreport
  rw [hkept.works.layout] at hwrite
  obtain ⟨-, -, -, hfiles⟩ := Job.replaceText_eq_ok hkept.opens (by decide) (by decide) hwrite
  have hopens := hkept.opens.of_changesBelow hfiles.changesBelow
  obtain ⟨b, -, -, hb, hdepth, hbname, -⟩ := hkept.works.exists_archive
  have hloaded := Run.run_loadState (hopens.readText_child hkept.state (by
    rw [hfiles.working, hfiles.find?_of_ne (by decide) (by decide)]
    exact hkept.archived b hb)) hdepth
  rw [hloaded] at hstate
  cases hstate
  rw [hbname] at hname
  cases hname
  rw [hopens.readText_child hkept.script (by rw [hfiles.working]; exact hfiles.file)] at hread
  cases hread
  have hnone : (Source.script answers.script.report).toOption.isSome = false := by decide +kernel
  rw [hscript] at hnone
  cases hnone

end Session

end GuidedLab
