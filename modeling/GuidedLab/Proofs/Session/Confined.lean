import GuidedLab.Proofs.Disk.Confined
import GuidedLab.Proofs.Run.Layout
import GuidedLab.Proofs.Session.Acts

/-!
# Sessions stay in their folder

Everything that is done in an open session changes the disk strictly below the folder of the run
(`staysIn_act`), whatever is refused on the way. Three names have to be meant well for that: a state or a
report that is named `.` would be drafted beside the folder, and experiments that are named `..` would be
recorded beside it. A start makes folders on the way to the folder of the run, and takes away only what it
found missing; a resume changes nothing (`confined`).
-/

namespace GuidedLab

open Disk (StaysIn ChangesBelow Makes Replaces staysIn_refl staysIn_trans)
open GuidedLab.Path (IsPlain)

namespace Session

variable {c : Config} {folder : Path} {s : Session} {d d' : Disk} {name file inner : String}
  {q base : List String}

/-! ### Paths below the folder -/

/-- Experiments that are not named as what is above lie in the folder or are the folder. -/
theorem exists_position_child (named : Config.IsNamed inner) (down : inner ≠ "..") (folder : Path)
    (base : List String) :
    ∃ rest, (folder.child inner).positionFrom base = folder.positionFrom base ++ rest := by
  rw [Path.positionFrom_child_whole folder named.whole]
  by_cases hdot : inner = "."
  · exact ⟨[], by rw [hdot, List.append_nil]; rfl⟩
  · exact ⟨[inner], Path.walk_plain (named.isPlain hdot down) _⟩

theorem exists_position_recording (named : Config.IsNamed inner) (down : inner ≠ "..")
    (plain : IsPlain name) (folder : Path) (base : List String) :
    ∃ rest, rest ≠ [] ∧
      ((folder.child inner).child name).positionFrom base = folder.positionFrom base ++ rest := by
  obtain ⟨rest, hrest⟩ := exists_position_child named down folder base
  refine ⟨rest ++ [name], by simp, ?_⟩
  rw [Path.positionFrom_child _ plain, hrest, List.append_assoc]

/-- The path of a recording passes what the folder's path passes, and then positions below it. -/
theorem passes_recording (named : Config.IsNamed inner) (down : inner ≠ "..")
    (plain : IsPlain name) (h : ((folder.child inner).child name).Passes base q) :
    folder.Passes base q ∨ folder.positionFrom base <+: q ∧ q ≠ folder.positionFrom base := by
  rcases h.of_child plain.whole with h | rfl
  · rcases h.of_child named.whole with h | rfl
    · exact Or.inl h
    · by_cases hdot : inner = "."
      · rw [hdot]
        exact Or.inl (folder.passes_positionFrom base)
      · rw [Path.walk_plain (named.isPlain hdot down)]
        exact Or.inr ⟨List.prefix_append _ _, Disk.append_ne_self (by simp) _⟩
  · obtain ⟨rest, hne, hrest⟩ := exists_position_recording named down plain folder base
    rw [Path.positionFrom_child _ plain] at hrest
    rw [Path.walk_plain plain, hrest]
    exact Or.inr ⟨List.prefix_append _ _, Disk.append_ne_self hne _⟩

/-! ### Work in the folder -/

/-- Copying a file into a new folder for an experiment stays in the folder of the run. -/
theorem keeps_filed (l : Run.Layout) (named : Config.IsNamed inner) (down : inner ≠ "..")
    (plain : IsPlain name) (plainFile : IsPlain file) (folder source : Path) :
    Job.Keeps (StaysIn folder) (filed l ((folder.child inner).child name) source file) := by
  have htrans := staysIn_trans folder
  have hrefl := staysIn_refl folder
  have hclear : ∀ d : Disk,
      StaysIn folder d (d.removeAll ((folder.child inner).child name)).1 := by
    intro d
    obtain ⟨rest, hne, hrest⟩ := exists_position_recording named down plain folder d.working
    rcases d.removeAll_cases ((folder.child inner).child name) with
      ⟨p, hplace, -, hr⟩ | ⟨p, r, hplace, -, hr⟩ | ⟨r, hd⟩
    · obtain ⟨hp, -, -⟩ := Disk.place_eq_ok hplace
      have hp : p = folder.positionFrom d.working ++ rest := Eq.trans hp hrest
      rw [hp] at hr
      exact hr.staysIn hne
    · obtain ⟨hp, -, -⟩ := Disk.place_eq_ok hplace
      have hp : p = folder.positionFrom d.working ++ rest := Eq.trans hp hrest
      rw [hp] at hr
      exact hr.staysIn hne
    · rw [hd]
      exact hrefl d
  have hmake : ∀ d : Disk, StaysIn folder d (d.makeAll ((folder.child inner).child name)).1 :=
    fun d => (Disk.makes_makeAll d _).staysIn fun q hq => passes_recording named down plain hq
  have hcopy : ∀ d d' : Disk,
      d.copy source (((folder.child inner).child name).child file) = .ok d' →
      StaysIn folder d d' := by
    intro d d' h
    obtain ⟨content, -, hwrite⟩ := Disk.copy_eq_ok h
    obtain ⟨rest, -, hrest⟩ := exists_position_recording named down plain folder d.working
    have hr := Disk.write_eq_ok hwrite
    rw [Path.positionFrom_child _ plainFile, hrest, List.append_assoc] at hr
    exact hr.staysIn (by simp)
  rw [filed]
  refine Job.Keeps.bind htrans (Job.keeps_ask hrefl _) fun there => ?_
  split
  · refine Job.Keeps.bind htrans (Job.Keeps.changeInPart hclear) fun _ => ?_
    refine Job.Keeps.bind htrans (Job.Keeps.changeInPart hmake) fun _ => ?_
    exact Job.Keeps.bind htrans (Job.Keeps.change hrefl hcopy) fun _ => Job.keeps_require hrefl _ _
  · refine Job.Keeps.bind htrans (Job.Keeps.changeInPart hmake) fun _ => ?_
    exact Job.Keeps.bind htrans (Job.Keeps.change hrefl hcopy) fun _ => Job.keeps_require hrefl _ _

/-- A recording that is replaced is taken away from below the folder of the run only. -/
theorem withoutRecording_eq_or (folder : Path) (recording : RawPath) (d : Disk) :
    withoutRecording folder recording d = d ∨
      ∃ q, folder.positionFrom d.working <+: q ∧ q ≠ folder.positionFrom d.working ∧
        Replaces q none d (withoutRecording folder recording d) := by
  rw [withoutRecording]
  split
  · next position above hposition habove =>
      obtain ⟨p, -, hposition⟩ := Option.bind_eq_some_iff.1 hposition
      obtain ⟨-, hfound⟩ := Disk.position?_eq_some hposition
      obtain ⟨habove, -⟩ := Disk.position?_eq_some habove
      split
      · next h =>
          rw [Bool.and_eq_true, List.isPrefixOf_iff_prefix, decide_eq_true_eq] at h
          obtain ⟨hpre, hne⟩ := h
          have hnil : position ≠ [] := by
            rintro rfl
            exact hne (List.prefix_nil.1 hpre)
          rw [habove] at hpre hne
          exact Or.inr ⟨position, hpre, Ne.symm hne, Disk.replaces_eraseLast hfound hnil⟩
      · exact Or.inl rfl
  · exact Or.inl rfl

/-- An interaction takes away a recording that is replaced, or leaves the disk. -/
theorem disk_interact_eq_or (s : Session) (a : Address) (i : Interaction) (d : Disk) :
    (s.interact a i d).2 = d ∨
      (s.interact a i d).1.1.recording? a ≠ s.recording? a ∧
      ∃ q, s.layout.folder.positionFrom d.working <+: q ∧
        q ≠ s.layout.folder.positionFrom d.working ∧ Replaces q none d (s.interact a i d).2 := by
  rw [interact]
  cases s.script.interact a i with
  | mk script r =>
      cases r with
      | error f => exact Or.inl rfl
      | ok changes =>
          dsimp only
          rw [afterwards]
          split
          · exact Or.inl rfl
          · next old hold =>
              split
              · next h =>
                  rcases withoutRecording_eq_or s.layout.folder old d with hd | hgone
                  · exact Or.inl hd
                  · refine Or.inr ⟨?_, hgone⟩
                    intro hsame
                    rw [hsame, hold] at h
                    simp [RawPath.sameSteps, Path.sameSteps] at h
              · exact Or.inl rfl

theorem staysIn_interact (hs : s.layout.folder = folder) (a : Address) (i : Interaction)
    (d : Disk) : StaysIn folder d (s.interact a i d).2 := by
  rcases s.disk_interact_eq_or a i d with hd | ⟨-, q, hpre, hne, hr⟩
  · rw [hd]
    exact staysIn_refl folder d
  · rw [hs] at hpre hne
    exact fun _ => hr.changesBelow hpre hne

theorem staysIn_copyRecording (h : s.IsOf c folder) (names : c.Names)
    (experiments : c.experiments ≠ "..") (a : Address) (source : Path) (now : Moment) :
    Job.Keeps (StaysIn folder) (s.copyRecording a source now) := by
  intro d
  rcases s.copyRecording_cases a source now d with
    ⟨f, hd⟩ | ⟨name, state, e, file, found, hfile, hd⟩
  · rw [hd]
    exact staysIn_refl folder d
  · rw [hd, h.layout]
    exact keeps_filed _ names.experiments experiments
      (Run.isPlain_nameAt now (h.isWritten.not_mem_name found)) (Path.isPlain_of_fileName? hfile)
      folder source d

/-- What a save does is what copying the script does and what replacing the state does. -/
theorem keeps_save_of {R : Disk → Disk → Prop} (refl : ∀ d, R d d)
    (trans : ∀ d e d', R d e → R e d' → R d d')
    (copied : ∀ d d', d.copy s.source (s.layout.script s.name) = .ok d' → R d d')
    (written : ∀ text, Job.Keeps R (Job.replaceText s.layout.state text)) : Job.Keeps R s.save := by
  rw [save]
  refine Job.Keeps.bind trans (Job.Keeps.within _ (Job.keeps_ofAnswer refl _)) fun a => ?_
  refine Job.Keeps.bind trans (Job.keeps_ask refl _) fun there => ?_
  split
  · exact written _
  · exact Job.Keeps.bind trans (Job.Keeps.change refl copied) fun _ => written _

/-- Copying the script stays in the folder of the run. -/
theorem staysIn_copy (h : s.IsOf c folder) (d d' : Disk)
    (copied : d.copy s.source (s.layout.script s.name) = .ok d') : StaysIn folder d d' := by
  rw [h.layout] at copied
  rcases h.named with plain | hsource
  · obtain ⟨content, -, hwrite⟩ := Disk.copy_eq_ok copied
    have hr := Disk.write_eq_ok hwrite
    rw [show (Run.Layout.of c folder).script s.name = folder.child s.name from rfl,
      Path.positionFrom_child folder plain] at hr
    exact hr.staysIn (by simp)
  · -- the script is the copy itself
    rw [hsource] at copied
    obtain ⟨content, -, hwrite⟩ := Disk.copy_eq_ok copied
    exact fun _ => ⟨(Disk.write_eq_ok hwrite).working, fun q _ => Disk.find?_of_copy_self copied⟩

theorem keeps_save (h : s.IsOf c folder) (names : c.Names) (state : c.state ≠ ".") :
    Job.Keeps (StaysIn folder) s.save := by
  refine keeps_save_of (staysIn_refl folder) (staysIn_trans folder) (staysIn_copy h) fun text => ?_
  rw [h.layout]
  exact Job.keeps_replaceText folder (names.state.isSegment state) text

theorem keeps_writeReport (h : s.IsOf c folder) (names : c.Names) (report : c.report ≠ ".") :
    Job.Keeps (StaysIn folder) s.writeReport := by
  rw [writeReport]
  refine Job.Keeps.bind (staysIn_trans folder) (Job.Keeps.within _ ?_) fun _ =>
    Job.Keeps.of_unchanged (staysIn_refl folder) fun _ => rfl
  rw [h.layout]
  exact Job.keeps_replaceText folder (names.report.isSegment report) _

/-- Every act stays in the folder, whether it is refused or not. -/
theorem staysIn_act (h : s.IsOf c folder) (names : c.Names) (state : c.state ≠ ".")
    (report : c.report ≠ ".") (experiments : c.experiments ≠ "..") (act : Act) (d : Disk) :
    StaysIn folder d (s.act act d).2 := by
  have hs : s.layout.folder = folder := by
    rw [h.layout]
    rfl
  cases act with
  | interact a i => exact staysIn_interact hs a i d
  | record a source now =>
      have hcopied := staysIn_copyRecording h names experiments a source now d
      rcases s.record_cases a source now d with ⟨f, -, hd⟩ | ⟨recorded, -, hd⟩
      · rw [act, hd]
        exact hcopied
      · rw [act, hd]
        exact staysIn_trans folder _ _ _ hcopied (staysIn_interact hs _ _ _)
  | goTo place =>
      rw [act]
      rcases s.goTo_cases place with ⟨-, hgo⟩ | ⟨-, f, hgo⟩ <;> rw [hgo] <;>
        exact staysIn_refl folder d
  | save => exact keeps_save h names state d
  | writeReport => exact keeps_writeReport h names report d

/-! ### Opening a session -/

theorem reads_load {source : Path} {d e : Disk} (h : e.readText source = d.readText source) :
    Job.Reads d e (Source.load source) := by
  rw [Source.load]
  exact (Job.reads_query h).bind fun text _ => (Job.reads_ofAnswer _).within _

theorem reads_openNew {source : Path} {d e : Disk} (h : e.readText source = d.readText source) :
    Job.Reads d e (openNew c source folder) := by
  rw [openNew]
  refine (Job.reads_require _ _).bind fun name _ => Job.Reads.bind ?_ fun _ _ => Job.reads_pure _
  rw [Source.loadChecked]
  refine (reads_load h).bind fun script _ => ?_
  dsimp only [Script.check]
  exact ((Job.reads_ofAnswer _).within _).bind fun _ _ => Job.reads_pure _

theorem reads_loadState {p : Path} {d e : Disk} (h : e.readText p = d.readText p) :
    Job.Reads d e (Run.loadState p) := by
  rw [Run.loadState]
  refine (Job.reads_query h).bind fun text _ => ?_
  split
  · exact Job.reads_pure _
  · exact Job.reads_ofAnswer _

/-- A resume reads the state and the script that the state names, and nothing else. -/
theorem reads_resume {e : Disk}
    (state : e.readText (folder.child c.state) = d.readText (folder.child c.state))
    (script : ∀ a name, (Run.loadState (folder.child c.state)).run d = (.ok a, d) →
      a.text? nameKey = some name →
      e.readText (folder.child name) = d.readText (folder.child name)) :
    Job.Reads d e (resume c folder) := by
  rw [resume]
  refine (reads_loadState state).bind fun a ha => (Job.reads_require _ _).bind fun name hname => ?_
  obtain ⟨hname, -⟩ := Job.run_require_eq_ok_iff.1 hname
  obtain ⟨hname, -⟩ := Option.filter_eq_some_iff.1 hname
  refine (reads_load (script a name ha hname)).bind fun loaded _ => ?_
  exact ((Job.reads_ofAnswer _).within _).bind fun _ _ => Job.reads_pure _

theorem walk_of_trimEnd_nil {b body : List String} (h : Path.trimEnd body = []) (hb : b <+: body)
    (base : List String) : Path.walk base b = base := by
  have hidle : ∀ s ∈ b, Path.isIdle s = true := by
    intro s hs
    have hall := List.all_takeWhile (p := Path.isIdle) (l := body.reverse)
    have hwhole := List.takeWhile_append_dropWhile (p := Path.isIdle) (l := body.reverse)
    rw [Path.trimEnd, List.reverse_eq_nil_iff] at h
    rw [h, List.append_nil] at hwhole
    rw [hwhole] at hall
    exact List.all_eq_true.1 hall s (List.mem_reverse.2 (hb.subset hs))
  rw [Path.walk_of_down fun s hs hs' => absurd (hidle s hs) (by rw [hs']; exact Bool.false_ne_true),
    List.filter_eq_nil_iff.2 fun s hs => by rw [hidle s hs]; exact Bool.false_ne_true,
    List.append_nil]

/-- A path without a parent is reached wherever the working folder is there. -/
theorem reaches_of_parent? (there : d.find? d.working = some .folder)
    (h : folder.parent? = none) : d.Reaches folder := by
  intro q hq _
  obtain ⟨b, hb, rfl⟩ := Path.passes_iff.1 hq
  rw [Path.parent?] at h
  split at h
  · next ht =>
      rw [walk_of_trimEnd_nil ht hb]
      cases folder.anchor with
      | root => rfl
      | here | dot => exact there
  · cases h

theorem reaches_of_makeAll (there : d.find? d.working = some .folder)
    (h : d.makeAll folder = (d', .ok ())) : d'.Reaches folder := by
  cases hparent : folder.parent? with
  | none =>
      have hd : d.makeAll folder = (d, .ok ()) := by
        rw [Disk.makeAll, hparent, Option.isNone_none, Bool.or_true, if_pos rfl]
      rw [hd] at h
      cases h
      exact reaches_of_parent? there hparent
  | some above =>
      obtain ⟨p, hp⟩ := Disk.exists_place_of_makeAll h (by rw [hparent]; exact Option.some_ne_none _)
      exact Disk.reaches_of_place hp

theorem reaches_of_resume (names : c.Names) (h : (resume c folder).run d = (.ok s, d')) :
    d' = d ∧ d.Reaches folder := by
  obtain ⟨hd, -⟩ := (reads_resume (d := d) rfl fun _ _ _ _ => rfl).run_eq
    (t := resume c folder)
  rw [h] at hd
  refine ⟨hd, ?_⟩
  rw [resume] at h
  obtain ⟨a, e, hstate, -⟩ := Job.run_bind_eq_ok_iff.1 h
  rw [Run.loadState] at hstate
  obtain ⟨text, _, htext, -⟩ := Job.run_bind_eq_ok_iff.1 hstate
  obtain ⟨htext, -⟩ := Job.run_query_eq_ok_iff.1 htext
  rw [Disk.readText] at htext
  split at htext
  · cases htext
  · next content hread =>
      obtain ⟨above, name, hplace⟩ := Disk.read_eq_ok hread
      exact fun q hq _ =>
        Disk.find?_of_passes_child names.state.whole hplace (Option.some_ne_none _) hq

/-- What a start does: it makes folders on the way to the folder of the run, and if it fails and nothing
was there before, what it found missing is taken away again. -/
theorem start_cases (c : Config) (source folder : Path) (d : Disk) :
    ∃ e, Makes (folder.Passes d.working) d e ∧
      ((∃ f, (start c source folder).run d = (.error f, e)) ∨
        d.makeAll folder = (e, .ok ()) ∧
          ((∃ s, (start c source folder).run d = (.ok s, e)) ∨
            ∃ f, (start c source folder).run d =
              (.error f, if d.isThere folder then e else (e.removeAll folder).1))) := by
  have hmakes := Disk.makes_makeAll d folder
  refine ⟨(d.makeAll folder).1, hmakes, ?_⟩
  rw [start, Job.run_bind, Job.run_ask]
  dsimp only
  rw [Job.run_bind, Job.run_changeInPart]
  cases hall : d.makeAll folder with
  | mk e r =>
      cases r with
      | error f => exact Or.inl ⟨_, rfl⟩
      | ok _ =>
          refine Or.inr ⟨rfl, ?_⟩
          have hreads : Job.Reads e e (openNew c source folder) := reads_openNew rfl
          obtain ⟨r, hopen, -⟩ := hreads
          show (∃ s, (Job.cleaning _ (openNew c source folder)).run e = (.ok s, e)) ∨
            ∃ f, (Job.cleaning _ (openNew c source folder)).run e = _
          rw [Job.run_cleaning, hopen]
          cases r with
          | ok s => exact Or.inl ⟨s, rfl⟩
          | error f =>
              refine Or.inr ⟨f, ?_⟩
              cases d.isThere folder <;> rfl

/-- Where the folder of the run is there already, a start only reads. -/
theorem disk_start_of_isFolder (there : d.isFolder folder = true) (c : Config) (source : Path) :
    ((start c source folder).run d).2 = d := by
  have hthere : d.isThere folder = true := by rw [Disk.isThere, Disk.place_of_isFolder there]
  obtain ⟨r, hopen, -⟩ : Job.Reads d d (openNew c source folder) := reads_openNew rfl
  rw [start, Job.run_bind, Job.run_ask]
  dsimp only
  rw [Job.run_bind, Job.run_changeInPart, Disk.makeAll_of_isFolder there]
  show ((Job.cleaning _ (openNew c source folder)).run d).2 = d
  rw [Job.run_cleaning, hopen, hthere]
  cases r <;> rfl

theorem makeAll_of_start {source : Path} {d' : Disk}
    (h : (start c source folder).run d = (.ok s, d')) : d.makeAll folder = (d', .ok ()) := by
  obtain ⟨e, -, ⟨f, hf⟩ | ⟨hall, ⟨t, ht⟩ | ⟨f, hf⟩⟩⟩ := start_cases c source folder d
  · rw [h] at hf
    cases hf
  · rw [h] at ht
    cases ht
    exact hall
  · rw [h] at hf
    cases hf

theorem Reached.reaches (h : Reached c folder s d) (names : c.Names) (state : c.state ≠ ".")
    (report : c.report ≠ ".") (experiments : c.experiments ≠ "..") : d.Reaches folder := by
  induction h with
  | started there h => exact reaches_of_makeAll there (makeAll_of_start h)
  | resumed h =>
      obtain ⟨rfl, hreaches⟩ := reaches_of_resume names h
      exact hreaches
  | acted h a ih =>
      exact ih.of_changesBelow (staysIn_act h.isOf names state report experiments a _ ih)

/-- With a valid configuration whose state and report are not named `.` and whose experiments are not
named `..`, the work on a run is confined to its folder. A start makes folders on the way to the folder,
and if it fails takes away what was not there before. A resume changes nothing, and what it answers
depends on two files only, the state and the script that the state names, which lies strictly in the
folder if its name is a contained path. From then on every act changes the disk strictly below the folder,
and the folder is there. -/
theorem confined {c : Config} (valid : c.validate = .ok ()) (state : c.state ≠ ".")
    (report : c.report ≠ ".") (experiments : c.experiments ≠ "..") (folder : Path) :
    (∀ (source : Path) (d : Disk) (q : List String),
      let r := (start c source folder).run d
      let run := folder.positionFrom d.working
      r.2.find? q = d.find? q ∨
      d.find? q = none ∧ r.2.find? q = some .folder ∧ folder.Passes d.working q ∨
      (∃ f, r.1 = .error f) ∧ d.isThere folder = false ∧ run <+: q ∧
        (r.2.find? q = none ∨ q = run ∧ r.2.find? q = some .folder)) ∧
    (∀ d : Disk, ((resume c folder).run d).2 = d) ∧
    (∀ (d : Disk) (a : Archive) (name : String),
      (Run.loadState (folder.child c.state)).run d = (.ok a, d) → a.text? nameKey = some name →
      (∀ e : Disk, e.readText (folder.child c.state) = d.readText (folder.child c.state) →
        e.readText (folder.child name) = d.readText (folder.child name) →
        ((resume c folder).run e).1 = ((resume c folder).run d).1) ∧
      ((⟨name⟩ : Path).isContained = true →
        let run := folder.positionFrom d.working
        let script := (folder.child name).positionFrom d.working
        run <+: script ∧ script ≠ run)) ∧
    (∀ (s : Session) (d : Disk), Reached c folder s d →
      let run := folder.positionFrom d.working
      d.find? run = some .folder ∧ ∀ act, ChangesBelow run d (s.act act d).2) := by
  have names := Config.names_of_validate valid
  refine ⟨?_, ?_, ?_, ?_⟩
  · intro source d q r run
    obtain ⟨e, hmakes, hcases⟩ := start_cases c source folder d
    have hmade : e.find? q = d.find? q ∨
        d.find? q = none ∧ e.find? q = some .folder ∧ folder.Passes d.working q :=
      hmakes.find?_or q
    rcases hcases with ⟨f, hf⟩ | ⟨-, ⟨s, hs⟩ | ⟨f, hf⟩⟩
    · rw [show r = _ from hf]
      exact hmade.imp_right Or.inl
    · rw [show r = _ from hs]
      exact hmade.imp_right Or.inl
    · rw [show r = _ from hf]
      cases hthere : d.isThere folder with
      | true => exact hmade.imp_right Or.inl
      | false =>
          have herror : ∃ g, (Except.error f : Except Failure Session) = .error g := ⟨f, rfl⟩
          rw [if_neg Bool.false_ne_true]
          rcases e.find?_removeAll folder q with hq | ⟨hq, hleft⟩
          · rw [hq]
            exact hmade.imp_right Or.inl
          · rw [hmakes.working] at hq hleft
            exact Or.inr (Or.inr ⟨herror, rfl, hq, hleft⟩)
  · intro d
    exact ((reads_resume (d := d) rfl fun _ _ _ _ => rfl).run_eq (t := resume c folder)).1
  · intro d a name ha hname
    constructor
    · intro e hstate hscript
      refine (Job.Reads.run_eq (reads_resume hstate fun b other hb hother => ?_)).2
      rw [ha] at hb
      cases hb
      rw [hname] at hother
      cases hother
      exact hscript
    · intro hcontained
      obtain ⟨-, hne, -⟩ := Path.positionFrom_of_isContained hcontained
      intro run script
      have hscript : script = run ++ (⟨name⟩ : Path).names :=
        Path.positionFrom_join_of_isContained folder hcontained d.working
      rw [hscript]
      exact ⟨List.prefix_append _ _, Disk.append_ne_self hne _⟩
  · intro s d h run
    have hreaches := h.reaches names state report experiments
    exact ⟨hreaches.find?, fun act =>
      staysIn_act h.isOf names state report experiments act d hreaches⟩

theorem confined_fall :
    (fall.act .save fallStarted).2.find? ["fall.json"] = fallStarted.find? ["fall.json"] := by
  obtain ⟨-, -, -, hacts⟩ := confined (c := .standard) rfl (by decide) (by decide) (by decide) ⟨"run"⟩
  obtain ⟨-, hbelow⟩ := hacts fall fallStarted (.started (by rfl) start_fall)
  apply (hbelow .save).find?_eq
  have hrun : (⟨"run"⟩ : Path).positionFrom fallStarted.working = ["run"] := by decide
  rw [hrun]
  decide

/-- A configuration that puts the experiments of a run beside its folder, though it is valid. -/
def straying : Config := { Config.standard with experiments := ".." }

/-- A script of one experiment and a file to record for it. -/
def oneExperiment : Disk :=
  let text := "\x7b\"title\":\"T\",\"pages\":[\x7b\"component\":\x7b\"type\":\"experiment\"," ++
    "\"sensor\":\"camera\",\"name\":\"swing\"\x7d\x7d]\x7d"
  ⟨.file "one.csv" "1".toUTF8 (.file "s.json" text.toUTF8 .nil), []⟩

/-- The session of the script of `oneExperiment`. -/
def swing : Session :=
  (attached straying (.new "T" (.new (.ofExperiment "swing" .camera ""))) ⟨"run"⟩ ⟨"s.json"⟩
    "s.json").atStart

/-- A valid configuration lets a session make folders and files beside the folder of its run. -/
theorem not_confined : ¬ ∀ (c : Config), c.validate = .ok () → ∀ (folder : Path) (s : Session)
    (d : Disk), Reached c folder s d → ∀ act,
      ChangesBelow (folder.positionFrom d.working) d (s.act act d).2 := by
  intro h
  let before := (oneExperiment.makeAll ⟨"run"⟩).1
  have hstart : (start straying ⟨"s.json"⟩ ⟨"run"⟩).run oneExperiment = (.ok swing, before) := by
    refine run_start_of_file (p := ["s.json"]) (by decide) (by rfl) (by rfl) (by rfl) ?_ (by rfl)
    apply Source.script_of_ofList
    · repeat' apply Source.append_eq_ofList
      all_goals exact rfl
    · decide +kernel
  have hbelow := h straying rfl ⟨"run"⟩ swing before (.started (by rfl) hstart)
    (.record ⟨0, []⟩ ⟨"one.csv"⟩ (Moment.ofSeconds 1398939330))
  have hrun : (⟨"run"⟩ : Path).positionFrom before.working = ["run"] := by decide +kernel
  have hsame := hbelow.find?_eq ["2014-05-01_10-15-30_swing", "one.csv"]
    (by rw [hrun]; decide)
  have hdiffer : (before.find? ["2014-05-01_10-15-30_swing", "one.csv"]).isSome = false ∧
      ((swing.act (.record ⟨0, []⟩ ⟨"one.csv"⟩ (Moment.ofSeconds 1398939330)) before).2.find?
        ["2014-05-01_10-15-30_swing", "one.csv"]).isSome = true := by
    decide +kernel
  rw [hsame, hdiffer.1] at hdiffer
  exact absurd hdiffer.2 Bool.false_ne_true

end Session

end GuidedLab
