import GuidedLab.CommandLine.Commands
import GuidedLab.Proofs.Run.Folders
import GuidedLab.Proofs.Session.Resumable
import GuidedLab.Proofs.Session.Resumed

/-!
# Runs that are started by a command

Without an option the program works with the configuration in a file of the working folder, which is not
touched by any work in the folder of a run (`IsStandard.of_changesBelow`). A start that ends well has
made the folder of the run and saved the session in it. What it leaves is a disk on which the run rests
(`CommandLine.exists_settled_of_started`).
-/

namespace GuidedLab

open Disk (ChangesBelow Holds Refiles)
open GuidedLab.Path (IsPlain)

namespace Disk

variable {d e : Disk} {name : String}

/-- What a name in the working folder stands for depends on what is found at one position. -/
theorem place_name (there : d.find? d.working = some .folder) (plain : IsPlain name)
    (short : name.utf8ByteSize ≤ longestName) (sound : IsSound ⟨name⟩) :
    d.place ⟨name⟩ = .ok (d.placeIn d.working name) := by
  have hb : d.base? ⟨name⟩ = some d.working := by
    obtain ⟨g, hg⟩ := Folder.find?_eq_folder_iff.1 there
    rw [base?, Path.isAbsolute_whole plain.whole, if_neg Bool.false_ne_true, hg]
    rfl
  rw [place_eq sound, hb, Path.segments_whole plain.whole]
  exact follow_plain plain short d d.working

theorem place_name_eq (there : d.find? d.working = some .folder) (working : e.working = d.working)
    (there' : e.find? d.working = some .folder)
    (same : e.find? (d.working ++ [name]) = d.find? (d.working ++ [name])) (plain : IsPlain name)
    (short : name.utf8ByteSize ≤ longestName) (sound : IsSound ⟨name⟩) :
    e.place ⟨name⟩ = d.place ⟨name⟩ := by
  rw [place_name there plain short sound, place_name (working.symm ▸ there') plain short sound,
    working, placeIn, placeIn, same]

end Disk

namespace Job

theorem run_attempt_eq_ok_iff {α : Type} {t : Job α} {r : Except Failure α} {d d' : Disk} :
    (attempt t).run d = (.ok r, d') ↔ t.run d = (r, d') := by
  show (Except.ok (t.run d).1, (t.run d).2) = _ ↔ _
  rw [Prod.ext_iff, Prod.ext_iff]
  exact and_congr_left fun _ => ⟨fun h => Except.ok.inj h, congrArg _⟩

theorem reads_ask {α : Type} {question : Disk → α} {d e : Disk} (h : question e = question d) :
    Reads d e (ask question) :=
  ⟨.ok (question d), rfl, by rw [run_ask, h]⟩

end Job

namespace Config

theorem reads_load {p : Path} {d e : Disk} (h : e.place p = d.place p) :
    Job.Reads d e (Config.load p) := by
  have hthere : e.isThere p = d.isThere p := by rw [Disk.isThere, Disk.isThere, h]
  have hread : e.readText p = d.readText p := by
    rw [Disk.readText, Disk.readText, Disk.read, Disk.read, h]
  rw [Config.load]
  refine (Job.reads_ask hthere).bind fun found _ => ?_
  split
  · refine (Job.reads_query hread).bind fun text _ => ?_
    split
    · exact Job.reads_ofAnswer _
    · exact ((Job.reads_ofAnswer _).within _).bind fun _ _ => Job.reads_pure _
  · exact Job.reads_pure _

/-- Where there is no file the standard configuration holds. -/
theorem run_load_of_not_isThere {p : Path} {d : Disk} (h : d.isThere p = false) :
    (Config.load p).run d = (.ok .standard, d) := by
  rw [Config.load, Job.run_bind, Job.run_ask]
  dsimp only
  rw [h]
  rfl

end Config

namespace CommandLine

variable {d e d₀ d₁ : Disk} {run : String} {now : Moment} {arguments : List String} {c : Command}

/-- A disk on which the program works with the standard configuration if it is given none. -/
structure IsStandard (d : Disk) : Prop where
  there : d.find? d.working = some .folder
  load : (Config.load (configPath none)).run d = (.ok .standard, d)

theorem IsStandard.of_same (h : IsStandard d) (working : e.working = d.working)
    (there : e.find? d.working = some .folder)
    (same : e.find? (d.working ++ [Config.fileName]) = d.find? (d.working ++ [Config.fileName])) :
    IsStandard e := by
  refine ⟨working.symm ▸ there, ?_⟩
  have hplace : e.place (configPath none) = d.place (configPath none) :=
    Disk.place_name_eq h.there working there same ⟨⟨by decide, by decide⟩, by decide⟩ (by decide)
      ⟨by decide, by decide, by decide⟩
  obtain ⟨r, hd, he⟩ := Config.reads_load hplace
  rw [h.load] at hd
  cases hd
  exact he

/-- The folder of a run. -/
def runFolder (run : String) : Path := (⟨Config.standard.runs⟩ : Path).child run

theorem positionFrom_runFolder (plain : IsPlain run) (start : List String) :
    (runFolder run).positionFrom start = start ++ [Config.standard.runs, run] := by
  have hruns : (⟨Config.standard.runs⟩ : Path).positionFrom start =
      start ++ [Config.standard.runs] := by
    show Path.walk ((⟨Config.standard.runs⟩ : Path).base start)
      (⟨Config.standard.runs⟩ : Path).segments = _
    rw [Path.segments_whole (by decide), Path.walk_plain ⟨⟨by decide, by decide⟩, by decide⟩]
    rfl
  rw [runFolder, Path.positionFrom_child _ plain, hruns, List.append_assoc]
  rfl

theorem isDirect_runFolder (plain : IsPlain run) (start : List String) :
    (runFolder run).IsDirect start := by
  apply Path.isDirect_of_down
  obtain ⟨first, hfirst, hchild⟩ := Path.exists_segments_child ⟨Config.standard.runs⟩ plain.whole
  rw [Path.segments_whole (by decide)] at hfirst
  rw [runFolder, hchild, List.mem_append, List.mem_singleton]
  rintro (hmem | hdown)
  · have hruns : ".." ∈ [Config.standard.runs] := by
      rcases hfirst with h | h <;> rw [h]
      · exact hmem
      · exact List.mem_append_left _ hmem
    exact absurd hruns (by decide)
  · exact plain.down hdown.symm

/-- What the program leaves behind when a command has ended. -/
def Ending.ofAnswer : Except Failure (Nat × List String) → Ending
  | .ok (code, lines) => .shown code lines
  | .error f => .failed f

/-- The ending and the disk that a command leaves behind. -/
def ended (x : Except Failure (Nat × List String) × Disk) : Ending × Disk := (.ofAnswer x.1, x.2)

theorem ended_eq_shown_iff {x : Except Failure (Nat × List String) × Disk} {code : Nat}
    {lines : List String} : ended x = (.shown code lines, d) ↔ x = (.ok (code, lines), d) := by
  obtain ⟨f | ⟨c, l⟩, e⟩ := x
  · exact ⟨nofun, nofun⟩
  · simp [ended, Ending.ofAnswer]

theorem run_eq (standard : IsStandard d) (asked : Request.ofArguments arguments = .command none c) :
    (CommandLine.run now arguments).run d = ended ((execute .standard now c).run d) := by
  have hended : ∀ job : Job (Nat × List String), (do
      match ← job.run with
      | .ok (code, lines) => return .shown code lines
      | .error f => return .failed f : StateM Disk Ending).run d =
        ended (job.run d) := by
    intro job
    show (match (job.run d).1 with
      | .ok (code, lines) => pure (.shown code lines)
      | .error f => pure (.failed f) : StateM Disk Ending) (job.run d).2 = _
    cases job.run d with
    | mk r d' => cases r <;> rfl
  have hjob : ExceptT.run (do
      let config ← Config.load (configPath none)
      execute config now c : Job (Nat × List String)) d = (execute .standard now c).run d := by
    rw [Job.run_bind, standard.load]
  rw [CommandLine.run, asked]
  exact (hended _).trans (by rw [hjob])

/-! ### Starting a run -/

theorem create_eq_ok {runs folder : Path} {name : String}
    (h : (Run.create runs name).run d = (.ok folder, e)) :
    IsPlain name ∧ folder = runs.child name ∧ ∃ d', d.makeAll runs = (d', .ok ()) ∧
      d'.make folder = .ok e := by
  rw [Run.create] at h
  obtain ⟨_, d₁, hcheck, hmade⟩ := Job.run_bind_eq_ok_iff.1 h
  rw [Run.checkName] at hcheck
  split at hcheck
  · next hname =>
      obtain ⟨-, rfl⟩ := Job.run_pure_eq_ok_iff.1 hcheck
      obtain ⟨_, d', hall, hrest⟩ := Job.run_bind_eq_ok_iff.1 hmade
      have hall := Job.run_changeInPart_eq_ok_iff.1 hall
      obtain ⟨r, d₂, hask, hmake⟩ := Job.run_bind_eq_ok_iff.1 hrest
      obtain ⟨hr, rfl⟩ := Job.run_ask_eq_ok_iff.1 hask
      refine ⟨Run.isPlain_of_isName hname, ?_⟩
      split at hmake
      · cases hmake
      · obtain ⟨_, d₃, hchange, hpure⟩ := Job.run_bind_eq_ok_iff.1 hmake
        obtain ⟨rfl, rfl⟩ := Job.run_pure_eq_ok_iff.1 hpure
        exact ⟨rfl, _, hall, Job.run_change_eq_ok_iff.1 hchange⟩
  · cases hcheck

/-- What starting a run has done when it succeeds: the folder was made, and the session started and saved
in it. -/
theorem startRun_eq_ok {c : Config} {script : Path} (h : (startRun c now script).run d = (.ok run, e)) :
    IsPlain run ∧ ∃ d' made opened s, d.makeAll ⟨c.runs⟩ = (d', .ok ()) ∧
      d'.make ((⟨c.runs⟩ : Path).child run) = .ok made ∧
      (Session.start c script ((⟨c.runs⟩ : Path).child run)).run made = (.ok s, opened) ∧
      s.save.run opened = (.ok (), e) := by
  rw [startRun] at h
  obtain ⟨folder, made, hcreate, hstarted⟩ := Job.run_bind_eq_ok_iff.1 h
  rw [Run.createAt] at hcreate
  obtain ⟨plain, hfolder, d', hall, hmake⟩ := create_eq_ok hcreate
  generalize Run.nameAt now (script.fileStem?.getD "") = name at plain hfolder
  subst hfolder
  obtain ⟨r, d₁, hattempt, hrest⟩ := Job.run_bind_eq_ok_iff.1 hstarted
  rw [Path.fileName?_child _ plain] at hrest
  have hjob := Job.run_attempt_eq_ok_iff.1 hattempt
  cases r with
  | ok _ =>
      obtain ⟨hrun, rfl⟩ := Job.run_pure_eq_ok_iff.1 hrest
      obtain rfl : run = name := hrun
      obtain ⟨s, opened, hstart, hsave⟩ := Job.run_bind_eq_ok_iff.1 hjob
      exact ⟨plain, d', made, opened, s, hall, hmake, hstart, hsave⟩
  | error f =>
      obtain ⟨_, d₂, -, hanswer⟩ := Job.run_bind_eq_ok_iff.1 hrest
      cases hanswer

/-! ### What a start leaves -/

theorem not_prefix_runFolder (plain : IsPlain run) (start : List String) (name : String) :
    ¬ (runFolder run).positionFrom start <+: start ++ [name] := by
  intro h
  have hlen := h.length_le
  rw [positionFrom_runFolder plain, List.length_append, List.length_append] at hlen
  exact absurd hlen (by simp)

/-- Work in the folder of a run leaves the configuration. -/
theorem IsStandard.of_changesBelow (h : IsStandard d) (plain : IsPlain run)
    (hc : ChangesBelow ((runFolder run).positionFrom d.working) d e) : IsStandard e := by
  refine h.of_same hc.working ?_ ?_
  · rw [hc.find?_eq, h.there]
    rintro ⟨hpre, -⟩
    exact not_prefix_runFolder plain d.working "" (hpre.trans (List.prefix_append _ _))
  · exact hc.find?_eq _ fun hbelow => not_prefix_runFolder plain d.working _ hbelow.1

/-- Making the folder of all runs leaves the configuration. -/
theorem IsStandard.of_makeAll (h : IsStandard d) : IsStandard (d.makeAll ⟨Config.standard.runs⟩).1 := by
  have hmakes := Disk.makes_makeAll d ⟨Config.standard.runs⟩
  refine h.of_same hmakes.working (hmakes.grows.find? _ _ h.there) ?_
  rcases hmakes.find?_or (d.working ++ [Config.fileName]) with hq | ⟨-, -, b, hb, hq⟩
  · exact hq
  · have hbase : (⟨Config.standard.runs⟩ : Path).base d.working = d.working := rfl
    rw [Path.segments_whole (by decide), List.prefix_cons_iff] at hb
    rw [hbase] at hq
    rcases hb with rfl | ⟨b, rfl, hb⟩
    · exact absurd hq (Disk.append_ne_self (List.cons_ne_nil _ _) _)
    · rw [List.prefix_nil.1 hb, Path.walk_plain ⟨⟨by decide, by decide⟩, by decide⟩] at hq
      exact absurd (List.append_cancel_left hq) (by decide)

theorem IsStandard.of_make (h : IsStandard d) (plain : IsPlain run)
    (hmake : d.make (runFolder run) = .ok e) : IsStandard e := by
  obtain ⟨hr, -⟩ := Disk.make_eq_ok hmake
  refine h.of_same hr.working ?_ ?_
  · rw [hr.find?_of_not_prefix, h.there]
    intro hpre
    exact not_prefix_runFolder plain d.working "" (hpre.trans (List.prefix_append _ _))
  · exact hr.find?_of_not_prefix (not_prefix_runFolder plain d.working _)

/-- What is known of a run by its script's name and text: the name is not one that the state or its draft
has, the text is no larger than a memory can be, and a draft can be written in the folder of the run. -/
structure IsRunOf (run name text : String) : Prop where
  plain : IsPlain run
  state : name ≠ Config.standard.state
  draft : name ≠ Config.standard.state ++ Job.draftEnding
  room : Holds (runFolder run) (Config.standard.state ++ Job.draftEnding)
  fits : text.utf8ByteSize < memoryLimit

open Session in
theorem openRun_eq {s : Session} {name text : String}
    (h : s.Kept .standard (runFolder run) name text d) :
    (openRun .standard run).run d = (resume .standard (runFolder run)).run d := by
  have hfolder : d.isFolder ((⟨Config.standard.runs⟩ : Path).child run) = true := by
    have hplace : d.place ((⟨Config.standard.runs⟩ : Path).child run) =
        .ok (.folder ((runFolder run).positionFrom d.working)) := h.opens.place
    rw [Disk.isFolder, hplace]
  rw [openRun, Job.run_bind, Job.run_ask]
  dsimp only
  rw [if_pos hfolder]
  rfl

/-- A command that ends with lines is a start that answered the name of the run. -/
theorem startRun_of_started {script : Path} (standard : IsStandard d)
    (asked : Request.ofArguments arguments = .command none (.start script))
    (started : (CommandLine.run now arguments).run d = (.shown doneCode [run], e)) :
    (startRun .standard now script).run d = (.ok run, e) := by
  rw [run_eq standard asked, ended_eq_shown_iff, execute] at started
  obtain ⟨name, e', hstarted, hpure⟩ := Job.run_bind_eq_ok_iff.1 started
  obtain ⟨hname, he⟩ := Job.run_pure_eq_ok_iff.1 hpure
  rw [Prod.mk.injEq, List.cons.injEq] at hname
  rw [hname.2.1, he]
  exact hstarted

/-- The folder of a run that was just made has nothing in it. -/
theorem find?_of_make {folder : Path} (h : d.make folder = .ok e) (q : List String)
    (hpre : folder.positionFrom e.working <+: q) (hne : q ≠ folder.positionFrom e.working) :
    e.find? q = none := by
  obtain ⟨hr, -⟩ := Disk.make_eq_ok h
  rw [hr.working] at hpre hne
  rw [hr.find?_eq, if_pos hpre]
  obtain ⟨rest, rfl⟩ := hpre
  rw [List.drop_left]
  cases rest with
  | nil => exact absurd (List.append_nil _) hne
  | cons name rest => rfl

open Session in
/-- A session at the start of its script has its questions as optional as they were written. -/
theorem withoutProgress_atStart (c : Config) (fresh : Script) (folder source : Path) (name : String) :
    (attached c fresh folder source name).atStart.script.tree.withoutProgress =
      fresh.tree.withoutProgress := by
  have hstart := (Script.start_of_tree_eq (s := (attached c fresh folder source name).script)
    (t := fresh) rfl).2
  show (attached c fresh folder source name).script.start.1.tree.withoutProgress = _
  rw [hstart]
  rcases fresh.start_cases with h | ⟨root, hroot, -, h⟩ <;> rw [h]
  exact Tree.withoutProgress_set hroot (Component.erased_withState _ _ _)

open Session in
/-- Nothing is recorded in a session at the start of its script. -/
theorem records_atStart {P : RawPath → Prop} (c : Config) {fresh : Script} (made : fresh.Made)
    (folder source : Path) (name : String) :
    (attached c fresh folder source name).atStart.script.tree.Records P := by
  have hstart := (Script.start_of_tree_eq (s := (attached c fresh folder source name).script)
    (t := fresh) rfl).2
  show (attached c fresh folder source name).script.start.1.tree.Records P
  rw [hstart]
  rcases fresh.start_cases with h | ⟨root, hroot, -, h⟩ <;> rw [h]
  · exact made.records
  · have hc : root.Every (Component.Records P) := made.records _ (Tree.mem_components_iff.2 ⟨_, hroot⟩)
    exact Tree.records_set made.records 0 (hc.withState (hc.self.withState _))

open Session in
/-- What a start leaves: the program opens the run, and the run rests on the disk. -/
theorem exists_settled_of_started {script : Path} (standard : IsStandard d₀)
    (asked : Request.ofArguments arguments = .command none (.start script))
    (started : (CommandLine.run now arguments).run d₀ = (.shown doneCode [run], d₁))
    (apart : ∀ name, script.fileName? = some name →
      name ≠ Config.standard.state ∧ name ≠ Config.standard.state ++ Job.draftEnding)
    (fits : ∀ content, d₀.find? (script.positionFrom d₀.working) = some (.file content) →
      content.size < memoryLimit) :
    ∃ name text s, IsRunOf run name text ∧ IsStandard d₁ ∧
      (openRun .standard run).run d₁ = (.ok s, d₁) ∧
      Settled .standard (runFolder run) name text d₁ s d₁ := by
  obtain ⟨plain, d', made, opened, s, hall, hmake, hstart, hsave⟩ :=
    startRun_eq_ok (startRun_of_started standard asked started)
  have hmake : d'.make (runFolder run) = .ok made := hmake
  have hstart : (start .standard script (runFolder run)).run made = (.ok s, opened) := hstart
  obtain rfl : opened = made := by
    have hopened := makeAll_of_start hstart
    rw [Disk.makeAll_of_isFolder (Disk.isFolder_of_make hmake)] at hopened
    exact (congrArg Prod.fst hopened).symm
  have hd' : IsStandard d' := by
    have := standard.of_makeAll
    rwa [hall] at this
  have hopened : IsStandard opened := hd'.of_make plain hmake
  -- the session was started in a folder with nothing in it, and saved there
  obtain ⟨name, text, fresh, hname, hread, hload, rfl⟩ := start_eq_ok hstart
  have hparent : (runFolder run).parent? ≠ none := by
    rw [runFolder, Path.parent?_child _ plain.toIsSegment]
    exact Option.some_ne_none _
  obtain ⟨hfile, hunder⟩ := underway_atStart (makeAll_of_start hstart) (find?_of_make hmake) hparent
    (isDirect_runFolder plain _) hname hread hload
  obtain ⟨hkept, hbelow, hroom, hdraft⟩ := kept_of_save hunder.works hunder.opens
    ⟨by decide, by decide⟩ hunder.atHand (apart name hname).1 (apart name hname).2 hsave
  have hfits : text.utf8ByteSize < memoryLimit := by
    have hmakes := Disk.makes_makeAll d₀ ⟨Config.standard.runs⟩
    rw [hall] at hmakes
    have hnew : Disk.Makes (fun _ => True) d' opened := Disk.makes_of_make hmake trivial
    rw [hnew.find?_eq_file_iff, hmakes.find?_eq_file_iff, hnew.working, hmakes.working] at hfile
    exact fits _ hfile
  have hlasting : ∀ other, Source.script text = .ok other →
      (attached .standard fresh (runFolder run) script name).atStart.script.tree.withoutProgress =
        other.tree.withoutProgress := by
    intro other hother
    rw [hload] at hother
    cases hother
    exact withoutProgress_atStart _ _ _ _ _
  obtain ⟨u, hresume, hresumed, -, -, hkept'⟩ :=
    hkept.exists_isResumed hfits hlasting (records_atStart _ (.loaded hload) _ _ _)
  rw [runFolder, Path.trimmed_child _ plain] at hroom
  refine ⟨name, text, u, ⟨plain, (apart name hname).1, (apart name hname).2, hroom, hfits⟩,
    hopened.of_changesBelow plain hbelow, (openRun_eq hkept').trans hresume, hresumed, hkept', ?_⟩
  intro a ha
  refine Disk.refiles_self (hkept'.archived a ha) ?_
  rw [hbelow.working]
  exact hdraft

end CommandLine

end GuidedLab
