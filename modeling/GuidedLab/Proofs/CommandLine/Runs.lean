import GuidedLab.CommandLine.Commands
import GuidedLab.Proofs.Run.Folders
import GuidedLab.Proofs.Session.Acts

/-!
# What commands take for a run

Three ways lead to a run: it is listed, it is deleted, or it is opened by one of the other commands. A
command that opens a run says that there is none if the text does not lead to a folder, and whatever it
says afterwards is something else: the rules that can be broken later are told apart from `refusals` by
their fourth letter, or because they are about a path in the folder of the run and so too long
(`IsWide`). Thus a command gets past that check exactly for the texts that lead to a folder
(`getsPast_iff`).

On plain names this is what is listed, so the three ways agree there but for the backslash, which names
a run that is listed and opened and cannot be deleted (`commands_agree_on_names`). They do not agree on
other texts: an empty one, dots, a path up or from the root are opened if there is a folder, and are
never listed (`not_commands_agree`).
-/

namespace GuidedLab.CommandLine

open Disk (Holds)
open GuidedLab.Path (IsPlain)
open Job (BreaksOnly)

variable {c : Config} {run text rule : String} {d : Disk} {p : Path}

/-! ### What a command says of a text that is no run -/

/-- What a command says when it takes a text for no run. -/
def refusals (c : Config) (run : String) : List String :=
  [s!"no run named {run} in {c.runs}", s!"invalid run name '{run}'"]

/-- A rule that is not about whether a text is a run. -/
def IsOther (c : Config) (run rule : String) : Prop := rule ∉ refusals c run

theorem refusals_eq (c : Config) (run : String) :
    refusals c run =
      ["no run named " ++ (run ++ " in " ++ c.runs), "invalid run name '" ++ (run ++ "'")] := by
  have hfirst : s!"no run named {run} in {c.runs}" = "no run named " ++ run ++ " in " ++ c.runs := rfl
  have hsecond : s!"invalid run name '{run}'" = "invalid run name '" ++ run ++ "'" := rfl
  rw [refusals, hfirst, hsecond]
  simp only [String.append_assoc]

theorem getElem?_toList_append {s t : String} {n : Nat} (h : n < s.toList.length) :
    (s ++ t).toList[n]? = s.toList[n]? := by
  rw [String.toList_append, List.getElem?_append_left h]

/-- The fourth letter tells that a rule is another one. -/
theorem isOther_of_fourth {x : Char} (h : rule.toList[3]? = some x) (hr : x ≠ 'r') (ha : x ≠ 'a') :
    IsOther c run rule := by
  intro hmem
  rw [refusals_eq, List.mem_cons, List.mem_singleton] at hmem
  rcases hmem with rfl | rfl
  · rw [getElem?_toList_append (by decide)] at h
    exact hr (Option.some.inj h).symm
  · rw [getElem?_toList_append (by decide)] at h
    exact ha (Option.some.inj h).symm

theorem isOther_append {s : String} {x : Char} (h : s.toList[3]? = some x) (hr : x ≠ 'r') (ha : x ≠ 'a')
    (rest : String) : IsOther c run (s ++ rest) := by
  obtain ⟨hlen, -⟩ := List.getElem?_eq_some_iff.1 h
  exact isOther_of_fourth (by rw [getElem?_toList_append hlen, h]) hr ha

/-- A text that starts at the root or has room for the names of all runs and of a run. -/
def IsWide (c : Config) (run text : String) : Prop :=
  text.toList[0]? = some '/' ∨ c.runs.toList.length + run.toList.length ≤ text.toList.length

theorem head?_of_isAbsolute (h : p.isAbsolute = true) : p.text.toList[0]? = some '/' := by
  rw [Path.isAbsolute_eq_head?, decide_eq_true_eq] at h
  rw [← List.head?_eq_getElem?, h]

theorem IsWide.append (h : IsWide c run text) (rest : String) : IsWide c run (text ++ rest) := by
  rcases h with h | h
  · left
    obtain ⟨hlen, -⟩ := List.getElem?_eq_some_iff.1 h
    rw [getElem?_toList_append hlen, h]
  · right
    rw [String.toList_append, List.length_append]
    omega

theorem IsWide.child (h : IsWide c run p.text) (name : String) : IsWide c run (p.child name).text := by
  by_cases habs : (⟨name⟩ : Path).isAbsolute = true
  · left
    rw [Path.child, Path.join, if_pos habs]
    exact head?_of_isAbsolute habs
  · obtain ⟨sep, -, htext⟩ := Path.exists_text_join p (Bool.eq_false_iff.2 habs)
    rw [Path.child, htext]
    exact (h.append sep).append name

theorem isWide_run (c : Config) (run : String) :
    IsWide c run ((⟨c.runs⟩ : Path).child run).text := by
  by_cases habs : (⟨run⟩ : Path).isAbsolute = true
  · left
    rw [Path.child, Path.join, if_pos habs]
    exact head?_of_isAbsolute habs
  · right
    obtain ⟨sep, -, htext⟩ := Path.exists_text_join ⟨c.runs⟩ (Bool.eq_false_iff.2 habs)
    rw [Path.child, htext]
    simp only [String.toList_append, List.length_append]
    omega

/-- A rule about a path in the folder of a run is too long to be about whether there is such a run. -/
theorem IsWide.isOther (h : IsWide c run text) (rest : String) (long : 19 < rest.toList.length) :
    IsOther c run (text ++ rest) := by
  intro hmem
  rw [refusals_eq, List.mem_cons, List.mem_singleton] at hmem
  rcases h with h | h
  · obtain ⟨hlen, -⟩ := List.getElem?_eq_some_iff.1 h
    have hhead : (text ++ rest).toList[0]? = some '/' := by rw [getElem?_toList_append hlen, h]
    rcases hmem with hmem | hmem <;> rw [hmem, getElem?_toList_append (by decide)] at hhead <;>
      exact absurd hhead (by decide)
  · have hfirst : "no run named ".toList.length = 13 := rfl
    have hsecond : "invalid run name '".toList.length = 18 := rfl
    have hin : " in ".toList.length = 4 := rfl
    have hend : "'".toList.length = 1 := rfl
    have hlen := hmem.imp (congrArg fun s : String => s.toList.length)
      (congrArg fun s : String => s.toList.length)
    simp only [String.toList_append, List.length_append] at hlen
    omega

/-! ### What else a command says -/

theorem breaksOnly_replaceText (p : Path) (text : String) :
    BreaksOnly (IsOther c run) (Job.replaceText p text) := by
  rw [Job.replaceText]
  have hparent : IsOther c run s!"path missing parent {p.text}" :=
    isOther_append (s := "path missing parent ") rfl (by decide) (by decide) p.text
  have hname : IsOther c run s!"path missing file name {p.text}" :=
    isOther_append (s := "path missing file name ") rfl (by decide) (by decide) p.text
  refine (Job.breaksOnly_require hparent _).bind fun above _ => ?_
  refine (Job.breaksOnly_changeInPart _ _).bind fun _ _ => ?_
  refine (Job.breaksOnly_require hname _).bind fun _ _ => ?_
  exact (Job.breaksOnly_change _ _).bind fun _ _ => Job.breaksOnly_change _ _

theorem breaksOnly_save (s : Session) : BreaksOnly (IsOther c run) s.save := by
  rw [Session.save]
  refine (Job.breaksOnly_within _ _).bind fun a _ => ?_
  refine (Job.breaksOnly_ask _).bind fun there _ => ?_
  cases there with
  | true => exact breaksOnly_replaceText _ _
  | false => exact (Job.breaksOnly_change _ _).bind fun _ _ => breaksOnly_replaceText _ _

theorem breaksOnly_resume (c : Config) (run : String) :
    BreaksOnly (IsOther c run) (Session.resume c ((⟨c.runs⟩ : Path).child run)) := by
  rw [Session.resume]
  refine BreaksOnly.bind ?_ fun a _ => ?_
  · rw [Run.loadState]
    refine (Job.breaksOnly_query _ _).bind fun text _ => ?_
    split
    · exact Job.breaksOnly_pure _
    · -- what is wrong with the text of a state file is told in its course
      apply Job.breaksOnly_ofAnswer
      intro rule h
      injection h with h
      exact absurd (congrArg Failure.contexts h) (List.cons_ne_nil _ _)
  · have hrule := ((isWide_run c run).child c.state).isOther (" contains no " ++ Session.nameKey)
      (by decide)
    rw [← String.append_assoc] at hrule
    refine (Job.breaksOnly_require hrule _).bind fun name _ => ?_
    refine BreaksOnly.bind ?_ fun script _ => ?_
    · rw [Source.load]
      exact (Job.breaksOnly_query _ _).bind fun _ _ => Job.breaksOnly_within _ _
    · exact (Job.breaksOnly_within _ _).bind fun _ _ => Job.breaksOnly_pure _

theorem breaksOnly_resolve (s : Session) (component : String) :
    BreaksOnly (IsOther c run) (resolve s component) :=
  Job.breaksOnly_require
    (isOther_append (s := "no component named ") rfl (by decide) (by decide) component) _

/-- A change of a session breaks the rules that its failures say. -/
theorem breaksOnly_changed {kind : String → Prop}
    {change : StateM Disk (Session × Except Failure (List Tree.Change))}
    (h : ∀ d rule, (change.run d).1.2 = .error (.ofRule rule) → kind rule) :
    BreaksOnly kind (changed change) := by
  intro d rule hrun
  apply h d rule
  have hmap : (change.run d).1.2.map (fun _ => (change.run d).1.1) = .error (.ofRule rule) := hrun
  cases hr : (change.run d).1.2 with
  | ok changes =>
      rw [hr] at hmap
      cases hmap
  | error f =>
      rw [hr] at hmap
      injection hmap with hf
      rw [hf]

/-- What is refused by the script is no rule of the program. -/
theorem snd_interact_ne_ofRule (s : Session) (a : Address) (i : Interaction) (d : Disk) (rule : String) :
    ((s.interact a i).run d).1.2 ≠ .error (.ofRule rule) := by
  show (s.interact a i d).1.2 ≠ _
  rw [Session.interact]
  rcases s.script.interact_cases a i with ⟨tree, changes, -, h⟩ | ⟨f, -, h⟩ <;> rw [h]
  · intro heq
    cases heq
  · intro heq
    injection heq with heq
    injection heq with _ heq
    cases heq

theorem breaksOnly_interactWith (component : String) (i : Interaction) (s : Session) :
    BreaksOnly (IsOther c run) (interactWith component i s) := by
  rw [interactWith]
  refine (breaksOnly_resolve s component).bind fun a _ => ?_
  exact breaksOnly_changed fun d rule h => absurd h (snd_interact_ne_ofRule s a i d rule)

theorem breaksOnly_copyRecording {s : Session} (h : s.IsOf c ((⟨c.runs⟩ : Path).child run))
    (a : Address) (source : Path) (now : Moment) :
    BreaksOnly (IsOther c run) (s.copyRecording a source now) := by
  have hunknown : IsOther c run s!"unknown component {a.text}" :=
    isOther_append (s := "unknown component ") rfl (by decide) (by decide) a.text
  have hfile : IsOther c run s!"experiment source {source.text} has no file name" := by
    have hrule : IsOther c run ("experiment source " ++ (source.text ++ " has no file name")) :=
      isOther_append rfl (by decide) (by decide) _
    rwa [← String.append_assoc] at hrule
  have hkind : ∀ other : Component, IsOther c run s!"component \"{other.name}\" is not an experiment" := by
    intro other
    have hrule : IsOther c run ("component \"" ++ (other.name ++ "\" is not an experiment")) :=
      isOther_append rfl (by decide) (by decide) _
    rwa [← String.append_assoc] at hrule
  have houtside : ∀ name, IsOther c run
      s!"{(s.layout.experiments.child name).text} is outside the run directory" := by
    intro name
    rw [h.layout]
    exact (((isWide_run c run).child c.experiments).child name).isOther " is outside the run directory"
      (by decide)
  rw [Session.copyRecording]
  -- each rule on the way is refused by its own text, and the rest is done by the disk
  refine (Job.breaksOnly_require hunknown _).bind fun found _ => ?_
  dsimp only
  split
  · refine (Job.breaksOnly_require hfile _).bind fun file _ => ?_
    refine (Job.breaksOnly_ask _).bind fun there _ => ?_
    split
    · exact (Job.breaksOnly_changeInPart _ _).bind fun _ _ =>
        (Job.breaksOnly_changeInPart _ _).bind fun _ _ =>
          (Job.breaksOnly_change _ _).bind fun _ _ => Job.breaksOnly_require (houtside _) _
    · exact (Job.breaksOnly_changeInPart _ _).bind fun _ _ =>
        (Job.breaksOnly_change _ _).bind fun _ _ => Job.breaksOnly_require (houtside _) _
  · rw [Job.refuse_bind]
    exact Job.breaksOnly_refuse (hkind _)

theorem breaksOnly_record {s : Session} (h : s.IsOf c ((⟨c.runs⟩ : Path).child run))
    (component : String) (file : Path) (now : Moment) :
    BreaksOnly (IsOther c run) (do
      let a ← resolve s component
      changed (s.record a file now)) := by
  refine (breaksOnly_resolve s component).bind fun a _ => breaksOnly_changed fun d rule hr => ?_
  have hr : (s.record a file now d).1.2 = .error (.ofRule rule) := hr
  rcases s.record_cases a file now d with ⟨f, hcopy, hd⟩ | ⟨recorded, -, hd⟩ <;> rw [hd] at hr
  · injection hr with hr
    rw [hr] at hcopy
    exact breaksOnly_copyRecording h a file now d rule hcopy
  · exact absurd hr (snd_interact_ne_ofRule s a (.record (.ofPath recorded)) _ rule)

theorem breaksOnly_goTo (s : Session) (page : Nat) :
    BreaksOnly (IsOther c run) (Job.ofAnswer (s.goTo page)) := by
  apply Job.breaksOnly_ofAnswer
  intro rule hr
  rw [Session.goTo] at hr
  split at hr
  · cases hr
  · injection hr with hr
    injection hr with _ hr
    injection hr with hr
    rw [← hr]
    show IsOther c run ("page " ++ toString page ++ " is not available (only " ++
      toString s.bookmark.chain.length ++ " page(s) unlocked)")
    simp only [String.append_assoc]
    exact isOther_append rfl (by decide) (by decide) _

/-! ### Commands that work on a run -/

/-- The run that a command works on, as its arguments give it. -/
def Command.run? : Command → Option String
  | .status run | .answer run _ _ | .tick run _ _ | .record run _ _ | .goTo run _ | .export run
  | .delete run => some run
  | .validate _ | .start _ | .runs => none

/-- A command does not end by saying that a text is no run. -/
def GetsPast (c : Config) (now : Moment) (command : Command) (run : String) (d : Disk) : Prop :=
  ∀ rule ∈ refusals c run, ((execute c now command).run d).1 ≠ .error (.ofRule rule)

variable {command : Command} {now : Moment}

theorem run_openRun (c : Config) (run : String) (d : Disk) :
    (openRun c run).run d =
      if d.isFolder ((⟨c.runs⟩ : Path).child run) = true then
        (Session.resume c ((⟨c.runs⟩ : Path).child run)).run d
      else (.error (.ofRule s!"no run named {run} in {c.runs}"), d) := by
  rw [openRun, Job.run_bind, Job.run_ask]
  dsimp only
  split <;> rfl

theorem exists_updateRun_eq (change : Session → Job Session)
    (h : ∀ s, s.IsOf c ((⟨c.runs⟩ : Path).child run) → BreaksOnly (IsOther c run) (change s)) :
    ∃ rest, updateRun c run change = openRun c run >>= rest ∧
      ∀ s, s.IsOf c ((⟨c.runs⟩ : Path).child run) → BreaksOnly (IsOther c run) (rest s) := by
  refine ⟨_, rfl, fun s hs => ?_⟩
  refine (h s hs).bind fun t _ => ?_
  exact (breaksOnly_save t).bind fun _ _ => Job.breaksOnly_pure _

/-- A command that does not delete a run opens it first, and later says nothing about whether it is
one. -/
theorem exists_execute_eq (h : command.run? = some run) (other : command ≠ .delete run) (c : Config)
    (now : Moment) :
    ∃ rest, execute c now command = openRun c run >>= rest ∧
      ∀ s, s.IsOf c ((⟨c.runs⟩ : Path).child run) → BreaksOnly (IsOther c run) (rest s) := by
  cases command with
  | status run =>
      cases h
      exact ⟨_, rfl, fun s _ => Job.breaksOnly_pure _⟩
  | answer run component text =>
      cases h
      exact exists_updateRun_eq _ fun s _ => breaksOnly_interactWith component (.answer text) s
  | tick run component ticked =>
      cases h
      exact exists_updateRun_eq _ fun s _ => breaksOnly_interactWith component (.check ticked) s
  | record run component file =>
      cases h
      exact exists_updateRun_eq _ fun s hs => breaksOnly_record hs component file now
  | goTo run page =>
      cases h
      exact exists_updateRun_eq _ fun s _ => breaksOnly_goTo s page
  | «export» run =>
      cases h
      refine ⟨_, rfl, fun s _ => ?_⟩
      rw [Session.writeReport]
      refine BreaksOnly.bind ?_ fun _ _ => Job.breaksOnly_pure _
      exact (Job.breaksOnly_within _ _).bind fun _ _ => Job.breaksOnly_pure _
  | delete run =>
      cases h
      exact absurd rfl other
  | validate script => cases h
  | start script => cases h
  | runs => cases h

/-- A command that does not delete takes every text for a run that leads from the folder of all runs to a
folder. -/
theorem getsPast_iff_isFolder (h : command.run? = some run) (other : command ≠ .delete run) (c : Config)
    (now : Moment) (d : Disk) :
    (GetsPast c now command run d ↔ d.isFolder ((⟨c.runs⟩ : Path).child run) = true) ∧
      (¬ GetsPast c now command run d → ((execute c now command).run d).2 = d) := by
  obtain ⟨rest, heq, hrest⟩ := exists_execute_eq h other c now
  by_cases hfolder : d.isFolder ((⟨c.runs⟩ : Path).child run) = true
  · have past : GetsPast c now command run d := by
      intro rule hmem hrun
      rw [heq, Job.run_bind, run_openRun, if_pos hfolder, ← Job.run_bind] at hrun
      have hother := (breaksOnly_resume c run).bind fun s hs => hrest s (Session.isOf_of_resume hs)
      exact hother d rule hrun hmem
    exact ⟨⟨fun _ => hfolder, fun _ => past⟩, fun hnot => absurd past hnot⟩
  · rw [GetsPast, heq, Job.run_bind, run_openRun, if_neg hfolder]
    refine ⟨⟨fun hpast => ?_, fun hf => absurd hf hfolder⟩, fun _ => rfl⟩
    exact absurd rfl (hpast _ List.mem_cons_self)

/-- What is refused of the deletion of a run that is there is refused by the disk. -/
theorem run_delete_ne_ofRule (valid : Run.isName run = true) (there : d.isFolder (p.child run) = true)
    (rule : String) : ((Run.delete p run).run d).1 ≠ .error (.ofRule rule) := by
  rw [Run.delete, Run.checkName, if_pos valid, pure_bind, Job.run_bind, Job.run_ask, there]
  dsimp only
  rw [if_pos rfl, Job.run_changeInPart]
  exact Job.during_ne_ofRule _ _ rule

/-- A run is deleted by a name that can name runs only. -/
theorem getsPast_delete_iff (c : Config) (now : Moment) (d : Disk) :
    (GetsPast c now (.delete run) run d ↔
      Run.isName run = true ∧ d.isFolder ((⟨c.runs⟩ : Path).child run) = true) ∧
      (¬ GetsPast c now (.delete run) run d → ((execute c now (.delete run)).run d).2 = d) := by
  rw [GetsPast, execute]
  cases valid : Run.isName run with
  | false =>
      rw [Job.run_bind, Run.run_delete_of_misnamed valid]
      refine ⟨⟨fun hpast => ?_, fun h => absurd h.1 Bool.false_ne_true⟩, fun _ => rfl⟩
      exact absurd rfl (hpast _ (List.mem_cons_of_mem _ List.mem_cons_self))
  | true =>
      cases there : d.isFolder ((⟨c.runs⟩ : Path).child run) with
      | false =>
          rw [Job.run_bind, Run.run_delete_of_not_isFolder valid there]
          refine ⟨⟨fun hpast => ?_, fun h => absurd h.2 Bool.false_ne_true⟩, fun _ => rfl⟩
          exact absurd rfl (hpast _ List.mem_cons_self)
      | true =>
          have past : ∀ rule ∈ refusals c run,
              ((Run.delete ⟨c.runs⟩ run >>= fun _ => pure (doneCode, ([] : List String))).run d).1 ≠
                .error (.ofRule rule) := by
            intro rule _ hrun
            rw [Job.run_bind] at hrun
            rcases hdelete : (Run.delete ⟨c.runs⟩ run).run d with ⟨f | _, e⟩ <;> rw [hdelete] at hrun
            · injection hrun with hrun
              exact run_delete_ne_ofRule valid there rule (by rw [hdelete, hrun])
            · cases hrun
          exact ⟨⟨fun _ => ⟨rfl, rfl⟩, fun _ => past⟩, fun hnot => absurd past hnot⟩

/-! ### Runs that are listed -/

/-- A text is listed as the name of a run. -/
def Listed (runs : Path) (run : String) (d : Disk) : Prop :=
  ∃ entries, (Run.list runs).run d = (.ok entries, d) ∧ run ∈ entries.map Run.Entry.name

/-- The folder at a path, if it is one, is as disks keep folders: its entries are in the order of their
names, and what is there has a name that is plain, of limited length and without the null character. -/
def IsKept (runs : Path) (d : Disk) : Prop :=
  ∀ p, d.place runs = .ok (.folder p) → d.OrderedAt p ∧
    ∀ name, d.find? (p ++ [name]) ≠ none →
      IsPlain name ∧ name.utf8ByteSize ≤ Disk.longestName ∧ Char.ofNat 0 ∉ name.toList

variable {runs : Path}

theorem isKept_of_place {f : Folder} {position : List String}
    (hplace : d.place runs = .ok (.folder position)) (hf : d.root.at? position = some f)
    (ordered : f.Ordered)
    (names : ∀ name ∈ f.names,
      IsPlain name ∧ name.utf8ByteSize ≤ Disk.longestName ∧ Char.ofNat 0 ∉ name.toList) :
    IsKept runs d := by
  intro p hp
  cases hp.symm.trans hplace
  refine ⟨⟨f, hf, ordered⟩, fun name hfound => names name ?_⟩
  rw [Disk.find?, Folder.find?_append hf] at hfound
  exact Folder.mem_names_of_find? ordered hfound

theorem isFolder_of_listed (h : Listed runs run d) : d.isFolder runs = true := by
  obtain ⟨entries, hlist, hrun⟩ := h
  exact Run.isFolder_of_list hlist (by rintro rfl; cases hrun)

/-- What is listed are the folders that are found in the folder of all runs. -/
theorem listed_iff (kept : IsKept runs d) :
    Listed runs run d ↔
      ∃ p, d.place runs = .ok (.folder p) ∧ d.find? (p ++ [run]) = some .folder := by
  cases hfolder : d.isFolder runs with
  | true =>
      have hplace := Disk.place_of_isFolder hfolder
      obtain ⟨names, hnames, -, hmem⟩ := Disk.exists_foldersIn hplace (kept _ hplace).1
      have hlist := Run.run_list_of_foldersIn (by rw [Disk.isThere, hplace]) hnames
      have hlisted : Listed runs run d ↔ run ∈ names := by
        rw [Listed, hlist]
        constructor
        · rintro ⟨entries, ⟨⟩, hrun⟩
          rwa [Run.map_name_map_ofName, List.mem_mergeSort] at hrun
        · intro hrun
          refine ⟨_, rfl, ?_⟩
          rwa [Run.map_name_map_ofName, List.mem_mergeSort]
      rw [hlisted, hmem]
      constructor
      · intro hfound
        exact ⟨_, hplace, hfound⟩
      · rintro ⟨p, hp, hfound⟩
        cases hp.symm.trans hplace
        exact hfound
  | false =>
      refine ⟨?_, ?_⟩
      · intro hlisted
        rw [isFolder_of_listed hlisted] at hfolder
        cases hfolder
      · rintro ⟨p, hp, -⟩
        rw [Disk.isFolder, hp] at hfolder
        cases hfolder

theorem isPlain_of_listed (kept : IsKept runs d) (h : Listed runs run d) : IsPlain run := by
  obtain ⟨p, hplace, hfound⟩ := (listed_iff kept).1 h
  exact ((kept p hplace).2 run (by rw [hfound]; exact Option.some_ne_none _)).1

/-- A plain name leads from the folder of all runs to a folder there, if the path is not too long for the
disk and the name is listed. -/
theorem isFolder_child_iff (kept : IsKept runs d) (ne : runs.text ≠ "") (plain : IsPlain run) :
    d.isFolder (runs.child run) = true ↔
      Listed runs run d ∧ (runs.child run).text.utf8ByteSize ≤ Disk.longestPath := by
  rw [listed_iff kept]
  constructor
  · intro hfolder
    have hchild := Disk.place_of_isFolder hfolder
    obtain ⟨p, hplace⟩ := Disk.exists_place_of_child plain ne hchild
    have holds := Disk.holds_of_place plain hchild
    rw [Disk.place_child hplace holds] at hchild
    refine ⟨⟨p, hplace, ?_⟩, holds.sound.short⟩
    rw [Disk.placeIn] at hchild
    split at hchild
    · next hfound => exact hfound
    · cases hchild
    · cases hchild
  · rintro ⟨⟨p, hplace, hfound⟩, short⟩
    obtain ⟨-, hname, noNul⟩ := (kept p hplace).2 run (by rw [hfound]; exact Option.some_ne_none _)
    have holds : Holds runs run :=
      ⟨plain, hname, Disk.isSound_child (Disk.isSound_of_place hplace) plain noNul short⟩
    rw [Disk.isFolder, Disk.place_child hplace holds, Disk.placeIn, hfound]

theorem runs_ne_empty_of_validate (valid : c.validate = .ok ()) : c.runs ≠ "" := by
  rw [Config.validate] at valid
  split at valid
  · next h =>
      rw [Config.broken?, Option.or_eq_none_iff, Config.blank?] at h
      intro heq
      rw [heq, Text.isBlankText_empty, if_pos rfl] at h
      cases h.1
  · cases valid

/-- A command takes a text for a run if it leads to a folder and, where the run is to be deleted, can name
one. -/
theorem getsPast_iff (h : command.run? = some run) (c : Config) (now : Moment) (d : Disk) :
    (GetsPast c now command run d ↔
      (command = .delete run → Run.isName run = true) ∧
        d.isFolder ((⟨c.runs⟩ : Path).child run) = true) ∧
      (¬ GetsPast c now command run d → ((execute c now command).run d).2 = d) := by
  by_cases hdelete : command = .delete run
  · rw [hdelete]
    simpa only [forall_const] using getsPast_delete_iff c now d
  · simpa only [hdelete, false_implies, true_and] using getsPast_iff_isFolder h hdelete c now d

/-- Commands agree on plain names: such a text is taken for a run if it is listed, and what is opened is
the folder of that name in the folder of all runs. A backslash keeps a run from being deleted, and so
does a path that is too long for the disk from any work. Other texts are never listed and never deleted;
the other commands take them for runs if they lead to a folder anywhere. -/
theorem commands_agree_on_names (valid : c.validate = .ok ()) (kept : IsKept ⟨c.runs⟩ d) (now : Moment)
    (h : command.run? = some run) :
    (IsPlain run →
      (GetsPast c now command run d ↔
        Listed ⟨c.runs⟩ run d ∧
          ((⟨c.runs⟩ : Path).child run).text.utf8ByteSize ≤ Disk.longestPath ∧
          (command = .delete run → '\\' ∉ run.toList)) ∧
      (GetsPast c now command run d → ∃ p, d.place ⟨c.runs⟩ = .ok (.folder p) ∧
        d.place ((⟨c.runs⟩ : Path).child run) = .ok (.folder (p ++ [run])))) ∧
    (¬ IsPlain run →
      ¬ Listed ⟨c.runs⟩ run d ∧
        (GetsPast c now command run d ↔
          command ≠ .delete run ∧ d.isFolder ((⟨c.runs⟩ : Path).child run) = true)) ∧
    (¬ GetsPast c now command run d → ((execute c now command).run d).2 = d) := by
  have ne := runs_ne_empty_of_validate valid
  obtain ⟨hpast, hsame⟩ := getsPast_iff h c now d
  rw [hpast, Run.isName_iff]
  refine ⟨fun plain => ⟨?_, ?_⟩, fun notPlain => ⟨?_, ?_⟩, ?_⟩
  · rw [isFolder_child_iff kept ne plain]
    grind
  · rintro ⟨-, hfolder⟩
    have hchild := Disk.place_of_isFolder hfolder
    obtain ⟨p, hplace⟩ := Disk.exists_place_of_child plain ne hchild
    refine ⟨p, hplace, ?_⟩
    rw [hchild, Path.positionFrom_child _ plain, ← (Disk.place_eq_ok hplace).1]
    rfl
  · exact fun hlisted => notPlain (isPlain_of_listed kept hlisted)
  · grind
  · rwa [hpast, Run.isName_iff] at hsame

/-- A run whose name has a backslash, which can be looked at and not deleted. -/
def slanted : Disk := ⟨.folder "script_user_data" (.folder "a\\b" .nil .nil) .nil, []⟩

theorem isKept_slanted : IsKept ⟨Config.standard.runs⟩ slanted :=
  isKept_of_place rfl rfl (by decide) (by decide)

theorem commands_agree_on_names_slanted :
    Listed ⟨Config.standard.runs⟩ "a\\b" slanted ∧
      GetsPast .standard ⟨2014, 5, 1, 10, 15, 30⟩ (.status "a\\b") "a\\b" slanted ∧
      ¬ GetsPast .standard ⟨2014, 5, 1, 10, 15, 30⟩ (.delete "a\\b") "a\\b" slanted := by
  have plain : IsPlain "a\\b" := by decide
  have listed : Listed ⟨Config.standard.runs⟩ "a\\b" slanted :=
    (listed_iff isKept_slanted).2 ⟨["script_user_data"], rfl, rfl⟩
  have looks : (Command.status "a\\b").run? = some "a\\b" := rfl
  have deletes : (Command.delete "a\\b").run? = some "a\\b" := rfl
  obtain ⟨hstatus, -⟩ := (commands_agree_on_names (c := .standard) rfl isKept_slanted
    ⟨2014, 5, 1, 10, 15, 30⟩ looks).1 plain
  obtain ⟨hdelete, -⟩ := (commands_agree_on_names (c := .standard) rfl isKept_slanted
    ⟨2014, 5, 1, 10, 15, 30⟩ deletes).1 plain
  refine ⟨listed, hstatus.2 ⟨listed, by decide, nofun⟩, fun hpast => ?_⟩
  exact (hdelete.1 hpast).2.2 rfl (by decide)

/-- A folder beside the folder of all runs, which is no run. -/
def beside : Disk := ⟨.folder "elsewhere" .nil (.folder "script_user_data" .nil .nil), []⟩

/-- A command opens a folder that is not listed, because the text leads up and out of the folder of all
runs. -/
theorem not_commands_agree :
    ¬ ∀ (c : Config) (d : Disk) (now : Moment) (command : Command) (run : String),
      c.validate = .ok () → IsKept ⟨c.runs⟩ d → command.run? = some run →
        (GetsPast c now command run d ↔ Listed ⟨c.runs⟩ run d) := by
  intro h
  have kept : IsKept ⟨Config.standard.runs⟩ beside :=
    isKept_of_place rfl rfl (by decide) (by decide)
  have looks : (Command.status "../elsewhere").run? = some "../elsewhere" := rfl
  have past := (getsPast_iff_isFolder looks (by decide) .standard ⟨2014, 5, 1, 10, 15, 30⟩ beside).1.2 rfl
  have listed := (h .standard beside _ _ _ rfl kept looks).1 past
  exact absurd (isPlain_of_listed kept listed) (by decide)

end GuidedLab.CommandLine
