import GuidedLab.Proofs.CommandLine.Runs
import GuidedLab.Proofs.CommandLine.Started
import GuidedLab.Proofs.Run.Spared

/-!
# Starts leave one run or none

A start makes the folder of the run, starts a session in it and saves it there. What fails after the
folder was made has worked in the folder only, or left a draft beside it if the state is named `.`
(`SparesRun`). The path still leads to the folder then, so the run is deleted again, and all other runs
are spared throughout. Hence a start adds the run that it names, or leaves the runs as they were
(`start_all_or_nothing`).

A start also makes the folder of all runs if it is missing. If the path of that folder leads up again
from a folder that is missing too (`Disk.LeadsDown`), that one is made on the way and may be listed as a
run from then on (`not_start_all_or_nothing`).
-/

namespace GuidedLab

open Disk (Opens Spares StaysIn StaysTidy Replaces)
open GuidedLab.Path (IsPlain)

namespace Run

variable {d : Disk} {runs : Path}

/-- The runs are listed alike where the path of their folder leads to the same place, which is no
folder. -/
theorem reads_list {e : Disk} (hplace : e.place runs = d.place runs) (hfolder : d.isFolder runs = false) :
    Job.Reads d e (list runs) := by
  have hfolders : e.foldersIn runs = d.foldersIn runs := by
    rw [Disk.isFolder] at hfolder
    rw [Disk.foldersIn, Disk.foldersIn, hplace]
    split <;> simp_all
  rw [list]
  refine (Job.reads_ask (by rw [Disk.isThere, Disk.isThere, hplace])).bind fun there _ => ?_
  split
  · exact (Job.reads_query hfolders).bind fun names _ => Job.reads_pure _
  · exact Job.reads_pure _

/-- Where a folder had to be made on the way down to the folder of all runs there were no runs, and
there are none afterwards. -/
theorem run_list_of_makes {e : Disk} (tidy : d.IsTidy) (leads : d.LeadsDown runs)
    (made : (d.makeAll runs).1 = e) {q : List String} (hq : runs.Passes d.working q)
    (hdiffer : e.find? q ≠ d.find? q) :
    (list runs).run d = (.ok [], d) ∧ (list runs).run e = (.ok [], e) := by
  have hmakes := Disk.makes_makeAll d runs
  rw [made] at hmakes
  obtain ⟨hbelow, hempty⟩ := leads.find?_below_of_makes hmakes hq hdiffer
  have hnofile : ∀ content, d.find? (runs.positionFrom d.working) ≠ some (.file content) := by
    intro content
    rw [hbelow _ List.prefix_rfl]
    nofun
  refine ⟨run_list_of_empty tidy hnofile fun name => hbelow _ (List.prefix_append _ _), ?_⟩
  apply run_list_of_empty (made ▸ Disk.staysTidy_makeAll d runs tidy)
  · intro content
    rw [hmakes.working, ne_eq, hmakes.find?_eq_file_iff]
    exact hnofile content
  · rw [hmakes.working]
    exact hempty

/-- Making the folder of all runs makes no run, if its path leads down. -/
theorem list_makeAll (tidy : d.IsTidy) (leads : d.LeadsDown runs) :
    ((list runs).run (d.makeAll runs).1).1 = ((list runs).run d).1 := by
  cases hfolder : d.isFolder runs with
  | true => rw [Disk.makeAll_of_isFolder hfolder]
  | false =>
      by_cases hsame : ∀ q, runs.Passes d.working q → (d.makeAll runs).1.find? q = d.find? q
      · -- the path leads where it did, which is no folder
        have hplace := Disk.place_congr (Disk.working_makeAll d runs) hsame
        exact (reads_list hplace hfolder).run_eq.2
      · simp only [not_forall] at hsame
        obtain ⟨q, hq, hdiffer⟩ := hsame
        obtain ⟨hlist, hlist'⟩ := run_list_of_makes tidy leads rfl hq hdiffer
        rw [hlist, hlist']

end Run

namespace CommandLine

variable {c : Config} {runs script : Path} {name : String} {d e d' : Disk} {now : Moment} {s : Session}

/-! ### What work on a run spares -/

/-- Work on a run, the folder of which the path opens, spares all other runs and leaves the way to the
folder. -/
def SparesRun (runs : Path) (name : String) (d d' : Disk) : Prop :=
  d.Opens (runs.child name) →
    Spares (runs.positionFrom d.working) name d d' ∧ d'.Opens (runs.child name)

theorem sparesRun_refl (runs : Path) (name : String) (d : Disk) : SparesRun runs name d d :=
  fun h => ⟨.refl _ _ d, h⟩

theorem sparesRun_trans (runs : Path) (name : String) (d e d' : Disk) (h : SparesRun runs name d e)
    (h' : SparesRun runs name e d') : SparesRun runs name d d' := by
  intro opens
  obtain ⟨hspares, hopens⟩ := h opens
  obtain ⟨hspares', hopens'⟩ := h' hopens
  rw [hspares.working] at hspares'
  exact ⟨hspares.trans hspares', hopens'⟩

theorem sparesRun_of_staysIn (plain : IsPlain name) (h : StaysIn (runs.child name) d d') :
    SparesRun runs name d d' := by
  intro opens
  have hbelow := h opens.reaches
  refine ⟨?_, opens.of_changesBelow hbelow⟩
  rw [Path.positionFrom_child runs plain] at hbelow
  exact hbelow.spares

/-- A file that is written beside the folder of a run spares the runs. -/
theorem sparesRun_of_file {other : String} {content : ByteArray}
    (h : Replaces (runs.positionFrom d.working ++ [other]) (some (.file content)) d d')
    (free : d.find? (runs.positionFrom d.working ++ [other]) ≠ some .folder) (name : String) :
    SparesRun runs name d d' := by
  intro opens
  refine ⟨h.spares_of_file free name, ?_, ?_⟩
  · rw [h.place_eq free opens.place, h.working]
    exact opens.place
  · rw [h.working]
    exact opens.direct

/-- Where the folder of a run is there, so is all that the path of the folder of all runs passes. -/
theorem sparesRun_makeAll (plain : IsPlain name) (d : Disk) :
    SparesRun runs name d (d.makeAll runs.trimmed).1 := by
  intro opens
  have hmakes := Disk.makes_makeAll d runs.trimmed
  have hsame : ∀ q, (d.makeAll runs.trimmed).1.find? q = d.find? q := by
    intro q
    rcases hmakes.find?_or q with hq | ⟨hnone, -, hq⟩
    · exact hq
    · rw [Disk.find?_of_passes_child plain.whole opens.place (Option.some_ne_none _)
        (Path.passes_of_passes_parent hq)] at hnone
      cases hnone
  refine ⟨⟨hmakes.working, fun q _ => Or.inl (hsame q)⟩, opens.of_changesBelow ?_⟩
  exact ⟨hmakes.working, fun q _ => hsame q⟩

/-- A text cannot be moved to the folder of a run. Its draft is left beside the folder. -/
theorem keeps_replaceText_dot (plain : IsPlain name) (text : String) :
    Job.Keeps (SparesRun runs name) (Job.replaceText ((runs.child name).child ".") text) := by
  have hrefl := sparesRun_refl runs name
  have htrans := sparesRun_trans runs name
  have hdraft : ∀ start, (runs.trimmed.child (name ++ Job.draftEnding)).positionFrom start =
      runs.positionFrom start ++ [name ++ Job.draftEnding] := Path.positionFrom_draft runs plain
  rw [Job.replaceText, Path.parent?_child_dot runs plain.toIsSegment,
    Path.fileName?_child_dot runs plain]
  simp only [Job.require_some_bind]
  refine Job.Keeps.bind htrans (Job.Keeps.changeInPart (sparesRun_makeAll plain)) fun _ => ?_
  refine Job.Keeps.bind htrans (Job.Keeps.change hrefl fun d d' h => ?_) fun _ =>
    Job.Keeps.change hrefl fun d d' h => ?_
  · have hr := Disk.write_eq_ok h
    rw [show (Path.ofAnchored runs.anchor (Path.trimEnd runs.body)) = runs.trimmed from rfl, hdraft] at hr
    exact sparesRun_of_file hr (Disk.find?_ne_folder_of_write (hdraft d.working) h) name
  · obtain ⟨-, -, -, hends, -⟩ := Disk.rename_eq_ok h
    have hdot := (Disk.endsInName_child (by decide) (by decide) (runs.child name)).1 hends
    exact absurd hdot.meant (by decide)

theorem keeps_save (h : s.IsOf c (runs.child name)) (names : c.Names) (plain : IsPlain name) :
    Job.Keeps (SparesRun runs name) s.save := by
  refine Session.keeps_save_of (sparesRun_refl runs name) (sparesRun_trans runs name)
    (fun d d' copied => sparesRun_of_staysIn plain (Session.staysIn_copy h d d' copied)) fun text => ?_
  rw [h.layout]
  by_cases state : c.state = "."
  · have hstate : (Run.Layout.of c (runs.child name)).state = (runs.child name).child "." := by
      rw [← state]
      rfl
    rw [hstate]
    exact keeps_replaceText_dot plain text
  · exact fun d => sparesRun_of_staysIn plain
      (Job.keeps_replaceText (runs.child name) (names.state.isSegment state) text d)

theorem keepsTidy_save (s : Session) : Job.Keeps StaysTidy s.save :=
  Session.keeps_save_of Disk.staysTidy_refl Disk.staysTidy_trans (fun _ _ h => Disk.staysTidy_copy h)
    fun text => Job.keepsTidy_replaceText s.layout.state text

/-! ### What a start does -/

/-- A folder that was just made is opened by its path. -/
theorem opens_of_make {p : List String} (plain : IsPlain name)
    (hplace : d.place runs = .ok (.folder p)) (hmake : d.make (runs.child name) = .ok e) :
    e.Opens (runs.child name) := by
  obtain ⟨hr, hnone⟩ := Disk.make_eq_ok hmake
  have hfree : d.find? ((runs.child name).positionFrom d.working) ≠ some .folder := by
    rw [hnone]
    nofun
  refine ⟨Disk.place_of_isFolder (Disk.isFolder_of_make hmake), ?_⟩
  rw [hr.working]
  rintro q hq ⟨hpre, hne⟩
  rcases hq.of_child plain.whole with hpass | heq
  · exact Disk.not_prefix_of_passes hplace hfree hpass hpre
  · rw [Path.positionFrom_child_whole runs plain.whole] at hne
    exact hne heq

/-- A session that is started in the folder of a run and saved there spares all other runs, however it
ends. -/
theorem started_spares (names : c.Names) (plain : IsPlain name) (opens : d.Opens (runs.child name))
    (tidy : d.IsTidy) (script : Path) :
    let e := ((Session.start c script (runs.child name) >>= Session.save).run d).2
    (Spares (runs.positionFrom d.working) name d e ∧ e.Opens (runs.child name)) ∧ e.IsTidy := by
  have hfolder : d.isFolder (runs.child name) = true := by rw [Disk.isFolder, opens.place]
  have hstart := Session.disk_start_of_isFolder hfolder c script
  rw [Job.run_bind]
  cases hs : (Session.start c script (runs.child name)).run d with
  | mk r d₁ =>
      rw [hs] at hstart
      obtain rfl : d₁ = d := hstart
      cases r with
      | error f => exact ⟨⟨.refl _ _ d₁, opens⟩, tidy⟩
      | ok s =>
          have hof := Session.isOf_of_start ⟨d₁, d₁, hs⟩
          exact ⟨keeps_save hof names plain d₁ opens, keepsTidy_save s d₁ tidy⟩

/-- Once the folder of the run is made, a start ends as the session that is started and saved there. If
that fails, the run is deleted again. -/
theorem run_startRun_of_made {r : Except Failure Unit} (plain : IsPlain name)
    (named : Run.nameAt now (script.fileStem?.getD "") = name)
    (made : (Run.create ⟨c.runs⟩ name).run d = (.ok ((⟨c.runs⟩ : Path).child name), e))
    (ended : (Session.start c script ((⟨c.runs⟩ : Path).child name) >>= Session.save).run e = (r, d')) :
    (startRun c now script).run d =
      match r with
      | .ok _ => (.ok name, d')
      | .error f =>
        (Job.within "remove failed run" (Run.delete ⟨c.runs⟩ name) >>= fun _ =>
          Job.ofAnswer (.error f)).run d' := by
  have hattempt : (Job.attempt (do
      let s ← Session.start c script ((⟨c.runs⟩ : Path).child name)
      s.save)).run e = (.ok r, d') := Job.run_attempt_eq_ok_iff.2 ended
  rw [startRun, Run.createAt, named]
  dsimp only
  rw [Job.run_bind, made]
  dsimp only
  rw [Path.fileName?_child _ plain, Option.getD_some, Job.run_bind, hattempt]
  cases r <;> rfl

/-- As long as the path of a run leads to its folder the run can be deleted. -/
theorem exists_delete (valid : Run.isName name = true) (opens : d.Opens (runs.child name)) :
    ∃ e, (Run.delete runs name).run d = (.ok (), e) ∧
      (d.removeAll (runs.child name)).1 = e ∧
      Replaces (runs.positionFrom d.working ++ [name]) none d e := by
  have plain := Run.isPlain_of_isName valid
  have hends := Disk.endsInName_of_isPlain plain runs
  have hplace := opens.place
  rw [Path.positionFrom_child runs plain] at hplace
  obtain ⟨e, hremove, hgone⟩ := Disk.exists_removeAll hplace hends (by simp)
  exact ⟨e, Run.run_delete_of_isFolder valid (by rw [Disk.isFolder, hplace]) hremove,
    by rw [hremove], hgone⟩

/-- A start fails with no folder made for the run, or it ends well and the folder is there, or it fails
and the folder is gone again. -/
theorem startRun_cases (names : c.Names) (ne : c.runs ≠ "") (tidy : d.IsTidy) (now : Moment)
    (script : Path) :
    let runs : Path := ⟨c.runs⟩
    let made := (d.makeAll runs).1
    let position := runs.positionFrom d.working
    (∃ f, (startRun c now script).run d = (.error f, d) ∨
      (startRun c now script).run d = (.error f, made)) ∨
    ∃ name e, made.place runs = .ok (.folder position) ∧ made.find? (position ++ [name]) = none ∧
      Spares position name made e ∧ e.IsTidy ∧
      ((startRun c now script).run d = (.ok name, e) ∧
          e.find? (position ++ [name]) = some .folder ∨
        ∃ f, (startRun c now script).run d = (.error f, e) ∧ e.find? (position ++ [name]) = none) := by
  intro runs made position
  generalize named : Run.nameAt now (script.fileStem?.getD "") = name
  rcases Run.create_cases runs name d with ⟨f, h⟩ | ⟨new, valid, hmake, h⟩
  · left
    refine ⟨f, ?_⟩
    rw [startRun, Run.createAt, named]
    dsimp only
    rw [Job.run_bind]
    exact h.imp (fun h => by rw [h]) fun h => by rw [h]
  · have plain := Run.isPlain_of_isName valid
    have hworking : made.working = d.working := Disk.working_makeAll d runs
    obtain ⟨x, hx⟩ := Disk.exists_place_of_make hmake
    obtain ⟨p, hplace⟩ := Disk.exists_place_of_child plain ne hx
    obtain rfl : p = position := by
      rw [show p = runs.positionFrom made.working from (Disk.place_eq_ok hplace).1, hworking]
    obtain ⟨hnew, hnone⟩ := Disk.make_eq_ok hmake
    rw [Path.positionFrom_child runs plain, hworking] at hnew hnone
    have hnewTidy : new.IsTidy := Disk.staysTidy_make hmake (Disk.staysTidy_makeAll d runs tidy)
    obtain ⟨⟨hspares, hopens⟩, htidy⟩ :=
      started_spares names plain (opens_of_make plain hplace hmake) hnewTidy script
    rcases hended : (Session.start c script (runs.child name) >>= Session.save).run new with ⟨r, e⟩
    rw [hended] at hspares hopens htidy
    have hrun := run_startRun_of_made plain named h hended
    have hposition : runs.positionFrom e.working = position := by
      rw [hspares.working, hnew.working, hworking]
    rw [hnew.working, hworking] at hspares
    have hspares := hnew.spares.trans hspares
    cases r with
    | ok _ =>
        have hfound := hopens.find?
        rw [Path.positionFrom_child runs plain, hposition] at hfound
        exact Or.inr ⟨name, e, hplace, hnone, hspares, htidy, Or.inl ⟨hrun, hfound⟩⟩
    | error f =>
        -- the path still leads to the folder, so the run can be deleted
        obtain ⟨e', hdelete, hremove, hgone⟩ := exists_delete valid hopens
        rw [hposition] at hgone
        have htidy' : e'.IsTidy := hremove ▸ Disk.staysTidy_removeAll e (runs.child name) htidy
        refine Or.inr ⟨name, e', hplace, hnone, hspares.trans hgone.spares, htidy', Or.inr ⟨f, ?_, ?_⟩⟩
        · rw [hrun]
          dsimp only
          rw [Job.run_bind, Job.run_within, hdelete]
          rfl
        · rw [hgone.find?_self]
          rfl

/-- The runs are listed in the text of a command line. -/
theorem run_execute_start (c : Config) (now : Moment) (script : Path) (d : Disk) :
    (execute c now (.start script)).run d =
      (((startRun c now script).run d).1.map fun name => (doneCode, [name]),
        ((startRun c now script).run d).2) := by
  rw [execute, Job.run_bind]
  rcases (startRun c now script).run d with ⟨f | name, e⟩ <;> rfl

/-- A run that is listed has a folder, and nothing is made in the place of its path. -/
theorem find?_of_listed {run : String} (tidy : d.IsTidy) (h : Listed runs run d) :
    (d.makeAll runs).1 = d ∧ d.find? (runs.positionFrom d.working ++ [run]) = some .folder := by
  have hfolder := isFolder_of_listed h
  have hplace := Disk.place_of_isFolder hfolder
  obtain ⟨names, hlist, -, -, hmem⟩ := Run.exists_list hplace (tidy.orderedAt_of_place hplace)
  obtain ⟨entries, hentries, hrun⟩ := h
  rw [hlist] at hentries
  cases hentries
  rw [Run.map_name_map_ofName] at hrun
  exact ⟨by rw [Disk.makeAll_of_isFolder hfolder], (hmem run).1 hrun⟩

/-- A start with a valid configuration leaves the runs as they are, or adds the run that it names. If it
fails, the same runs are listed as before. If it ends well it shows one name, which is listed in
addition. However it ends, nothing is changed in the folder of another run. This holds where the path of
all runs leads down, as it does if there is a folder or the path has no way up. -/
theorem start_all_or_nothing {c : Config} (valid : c.validate = .ok ()) {d e : Disk} (tidy : d.IsTidy)
    (leads : d.LeadsDown ⟨c.runs⟩) (now : Moment) (script : Path)
    {r : Except Failure (Nat × List String)} (ended : (execute c now (.start script)).run d = (r, e)) :
    (∀ f, r = .error f → ((Run.list ⟨c.runs⟩).run e).1 = ((Run.list ⟨c.runs⟩).run d).1) ∧
    (∀ shown, r = .ok shown → ∃ name before after, shown = (doneCode, [name]) ∧
      ((Run.list ⟨c.runs⟩).run d).1 = .ok before ∧ ((Run.list ⟨c.runs⟩).run e).1 = .ok after ∧
      name ∉ before.map Run.Entry.name ∧
      (after.map Run.Entry.name).Perm (name :: before.map Run.Entry.name)) ∧
    ∀ run, Listed ⟨c.runs⟩ run d → ∀ q,
      (⟨c.runs⟩ : Path).positionFrom d.working ++ [run] <+: q → e.find? q = d.find? q := by
  have hmadeList := Run.list_makeAll tidy leads
  have hmadeTidy := Disk.staysTidy_makeAll d ⟨c.runs⟩ tidy
  rw [run_execute_start] at ended
  rcases startRun_cases (Config.names_of_validate valid) (runs_ne_empty_of_validate valid) tidy now script
    with ⟨f, h | h⟩ | ⟨name, e', hplace, hnone, hspares, htidy, hends⟩
  · rw [h] at ended
    cases ended
    exact ⟨fun _ _ => rfl, nofun, fun _ _ _ _ => rfl⟩
  · rw [h] at ended
    cases ended
    exact ⟨fun _ _ => hmadeList, nofun, fun run hrun q _ => by rw [(find?_of_listed tidy hrun).1]⟩
  · have hfree : (d.makeAll ⟨c.runs⟩).1.find?
        ((⟨c.runs⟩ : Path).positionFrom d.working ++ [name]) ≠ some .folder := by
      rw [hnone]
      nofun
    have hothers : ∀ run, Listed ⟨c.runs⟩ run d → ∀ q,
        (⟨c.runs⟩ : Path).positionFrom d.working ++ [run] <+: q → e'.find? q = d.find? q := by
      intro run hrun q hq
      obtain ⟨hmade, hfolder⟩ := find?_of_listed tidy hrun
      rw [hmade] at hspares hfree
      have hne : run ≠ name := by
        rintro rfl
        exact hfree hfolder
      exact hspares.find?_eq hne hfolder hq
    rcases hends with ⟨h, hthere⟩ | ⟨f, h, hgone⟩
    · rw [h] at ended
      cases ended
      refine ⟨nofun, ?_, hothers⟩
      rintro _ ⟨⟩
      rw [← hmadeList]
      obtain ⟨before, after, hlists⟩ :=
        Run.perm_list_of_spares hspares hmadeTidy htidy hplace hfree hthere
      exact ⟨name, before, after, rfl, hlists⟩
    · rw [h] at ended
      cases ended
      refine ⟨fun _ _ => ?_, nofun, hothers⟩
      rw [← hmadeList]
      exact Run.list_eq_of_spares hspares hmadeTidy htidy hplace hfree (by rw [hgone]; nofun)

/-- A disk with one run, with a report in its folder. -/
def oneRun : Disk :=
  let run := Folder.nil.put "answers.md" (.file "# T\n".toUTF8)
  ⟨Folder.nil.put "script_user_data" (.folder (Folder.nil.put "older" (.folder run))), []⟩

theorem isTidy_oneRun : oneRun.IsTidy := by
  have hrun := Folder.isTidy_nil.put (e := .file "# T\n".toUTF8) "answers.md" (by rintro _ ⟨⟩)
  have hruns := Folder.isTidy_nil.put "older" (e := .folder _) (by rintro _ ⟨⟩; exact hrun)
  exact Folder.isTidy_nil.put "script_user_data" (e := .folder _) (by rintro _ ⟨⟩; exact hruns)

/-- A start of a script that is missing is an error, and the older run stays. -/
theorem start_all_or_nothing_missing : ∃ f e,
    (execute .standard (Moment.ofSeconds 1398939330) (.start ⟨"missing.json"⟩)).run oneRun = (.error f, e) ∧
      ((Run.list ⟨"script_user_data"⟩).run e).1 = .ok [Run.Entry.ofName "older"] ∧
      e.find? ["script_user_data", "older", "answers.md"] = some (.file "# T\n".toUTF8) := by
  have hfolder : oneRun.isFolder ⟨"script_user_data"⟩ = true := by decide +kernel
  have hthere : oneRun.isThere ⟨"script_user_data"⟩ = true := by decide +kernel
  have hnames : oneRun.foldersIn ⟨"script_user_data"⟩ = .ok ["older"] := by rfl
  have hlist := Run.run_list_of_foldersIn hthere hnames
  rw [List.mergeSort_singleton] at hlist
  rcases hrun : (execute .standard (Moment.ofSeconds 1398939330) (.start ⟨"missing.json"⟩)).run oneRun
    with ⟨f | shown, e⟩
  · obtain ⟨hsame, -, hothers⟩ := start_all_or_nothing (c := .standard) rfl isTidy_oneRun
      (Disk.leadsDown_of_isFolder hfolder) _ _ hrun
    refine ⟨f, e, rfl, (hsame f rfl).trans (congrArg Prod.fst hlist), ?_⟩
    exact hothers "older" ⟨_, hlist, List.mem_cons_self⟩ _ ⟨["answers.md"], by decide +kernel⟩
  · have hfails : ((execute .standard (Moment.ofSeconds 1398939330) (.start ⟨"missing.json"⟩)).run
        oneRun).1.toOption.isNone = true := by decide +kernel
    rw [hrun] at hfails
    cases hfails

/-- The standard configuration with a path of all runs that leads up again. -/
def upwards : Config :=
  { Config.standard with runs := "b/x/.." }

/-- Where the path of all runs leads up from a folder that is missing, a start that fails leaves that
folder, and it is listed as a run. -/
theorem not_start_all_or_nothing : ¬ ∀ (c : Config), c.validate = .ok () → ∀ (d e : Disk), d.IsTidy →
    ∀ (now : Moment) (script : Path) (f : Failure),
      (execute c now (.start script)).run d = (.error f, e) →
        ((Run.list ⟨c.runs⟩).run e).1 = ((Run.list ⟨c.runs⟩).run d).1 := by
  intro h
  have hfails : ((execute upwards (Moment.ofSeconds 1398939330) (.start ⟨"missing.json"⟩)).run
      default).1.toOption.isNone = true := by decide +kernel
  have hthere : ((execute upwards (Moment.ofSeconds 1398939330) (.start ⟨"missing.json"⟩)).run
      default).2.isThere ⟨"b/x/.."⟩ = true := by decide +kernel
  have hnames : ((execute upwards (Moment.ofSeconds 1398939330) (.start ⟨"missing.json"⟩)).run
      default).2.foldersIn ⟨"b/x/.."⟩ = .ok ["x"] := by decide +kernel
  rcases hrun : (execute upwards (Moment.ofSeconds 1398939330) (.start ⟨"missing.json"⟩)).run default
    with ⟨f | shown, e⟩
  · rw [hrun] at hthere hnames
    have hsame := h upwards rfl default e Folder.isTidy_nil _ _ f hrun
    have hbefore : (Run.list ⟨upwards.runs⟩).run default = (.ok [], default) :=
      Run.run_list_of_missing (by rfl)
    rw [show (⟨upwards.runs⟩ : Path) = ⟨"b/x/.."⟩ from rfl] at hsame hbefore
    rw [hbefore, Run.run_list_of_foldersIn hthere hnames, List.mergeSort_singleton] at hsame
    cases hsame
  · rw [hrun] at hfails
    cases hfails

end CommandLine

end GuidedLab
