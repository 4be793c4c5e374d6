import GuidedLab.Proofs.Path.Prefix
import GuidedLab.Proofs.Session.Confined

/-!
# What a recording does to the files of a run

A recording that succeeds makes one file, the copy, and takes files away in two places: below the folder
of the copy, if there was one already, and below the recording that the experiment had before, if the
new one is at another path. Each step has an equation for the files it leaves (`filed_eq_ok`,
`find?_interact_record`), and together they say which files survive (`recordings_survive`). Whether one
of the places belongs to another experiment is not looked at.
-/

namespace GuidedLab

open Disk (Replaces)
open GuidedLab.Path (IsPlain)

namespace Session

variable {c : Config} {folder target source recorded : Path} {s t : Session} {d d' : Disk}
  {a : Address} {file : String} {changes : List Tree.Change}

/-! ### The paths that are recorded -/

theorem IsOf.isContained_recording? {path : RawPath} (h : s.IsOf c folder)
    (hr : s.recording? a = some path) : path.isContained = true := by
  rw [recording?_eq] at hr
  obtain ⟨e, he, hr⟩ := Option.bind_eq_some_iff.1 hr
  obtain ⟨page, hpage, he⟩ := Option.bind_eq_some_iff.1 he
  exact h.isContained page (Tree.mem_components_iff.2 ⟨_, hpage⟩) _ _ he _ hr

/-- An accepted recording is an experiment's own, and touches the path of no other experiment. -/
theorem recording?_of_respond? {t u : Tree} {path : RawPath}
    (h : t.respond? a (.record path) = .ok (u, changes)) :
    path.isContained = true ∧ (u.at? a).bind (fun c => c.progress.path?) = some path ∧
      ∀ b, b ≠ a → (u.at? b).bind (fun c => c.progress.path?) =
        (t.at? b).bind fun c => c.progress.path? := by
  obtain ⟨page, page', itemChanges, hpage, hresponds, rfl, -⟩ := Tree.respond?_eq_ok_iff.1 h
  have hresponds := Component.respond?_eq_ok_iff.1 hresponds
  obtain ⟨e, e', he, hreacts, he'⟩ := hresponds.target
  have hself : ((t.set a.node page').at? a).bind (fun c => c.progress.path?) = some path ∧
      path.isContained = true := by
    rw [Tree.at?_set_self hpage, he']
    cases hreacts with
    | leaf name before hreacts =>
        cases hreacts with
        | record path x contained => exact ⟨rfl, contained⟩
  refine ⟨hself.2, hself.1, ?_⟩
  intro b hb
  by_cases hnode : b.node = a.node
  · have hitems : b.items ≠ a.items := Address.items_ne hb hnode
    rw [Tree.at?, Tree.at?, hnode, Tree.component?_set_self hpage, hpage, Option.bind_some,
      Option.bind_some]
    by_cases hon : b.items <+: a.items
    · -- on the way there are sheets only, and no sheet records anything
      obtain ⟨x, x', hx, hx', hsheet, hsheet'⟩ := hresponds.above hon hitems
      rw [hx, hx']
      cases x with
      | leaf => exact absurd trivial hsheet
      | sheet =>
          cases x' with
          | leaf => exact absurd trivial hsheet'
          | sheet => rfl
    · rw [hresponds.frame hon]
  · rw [Tree.at?_set_of_ne hnode]

/-! ### Files that are taken away -/

theorem isThere_eq (d : Disk) (path : Path) : d.isThere path = (d.position? path).isSome := by
  rw [Disk.isThere, Disk.position?]
  cases d.place path with
  | error r => rfl
  | ok x => cases x <;> rfl

/-- A path that is not written as a text leads nowhere, so nothing is taken away with it. -/
theorem withoutRecording_of_not_isWritten {path : RawPath} (unwritten : ¬ path.IsWritten)
    (folder : Path) (d : Disk) : withoutRecording folder path d = d := by
  have hnone : path.toPath? = none := by
    cases hpath : path.toPath? with
    | none => rfl
    | some p => exact absurd ⟨p, RawPath.toPath?_eq_some_iff.1 hpath⟩ unwritten
  rw [withoutRecording, hnone]
  rfl

/-- A recording is taken away with all that is at or below it, if it can be reached. -/
theorem withoutRecording_cases (contained : recorded.isContained = true) (folder : Path) (d : Disk) :
    (d.isThere folder = true ∧ d.isThere (folder.join recorded) = true ∧
      Replaces (folder.positionFrom d.working ++ recorded.names) none d
        (withoutRecording folder (.ofPath recorded) d)) ∨
    ¬ (d.isThere folder = true ∧ d.isThere (folder.join recorded) = true) ∧
      withoutRecording folder (.ofPath recorded) d = d := by
  rw [withoutRecording, RawPath.toPath?_eq_some_iff.2 rfl, Option.bind_some, isThere_eq, isThere_eq]
  obtain ⟨-, hne, -⟩ := Path.positionFrom_of_isContained contained
  cases hr : d.position? (folder.join recorded) with
  | none => exact Or.inr ⟨fun h => Bool.false_ne_true h.2, rfl⟩
  | some position =>
      cases hf : d.position? folder with
      | none => exact Or.inr ⟨fun h => Bool.false_ne_true h.1, rfl⟩
      | some above =>
          obtain ⟨hposition, hfound⟩ := Disk.position?_eq_some hr
          obtain ⟨habove, -⟩ := Disk.position?_eq_some hf
          rw [Path.positionFrom_join_of_isContained folder contained, ← habove] at hposition
          have hbelow : (above.isPrefixOf position && above ≠ position) = true := by
            rw [Bool.and_eq_true, List.isPrefixOf_iff_prefix, decide_eq_true_eq, hposition]
            exact ⟨List.prefix_append _ _, Ne.symm (Disk.append_ne_self hne _)⟩
          have hnil : position ≠ [] := by
            rw [hposition]
            simp [hne]
          dsimp only
          rw [if_pos hbelow, ← habove, ← hposition]
          exact Or.inl ⟨rfl, rfl, Disk.replaces_eraseLast hfound hnil⟩

theorem afterwards_record {before after : Session} {path : RawPath}
    (h : after.recording? a = some path) (d : Disk) :
    afterwards before after a (.record path) d =
      match before.recording? a with
      | none => d
      | some old =>
        if old.sameSteps path then d else withoutRecording before.layout.folder old d := by
  rw [afterwards, h]
  cases before.recording? a with
  | none => rfl
  | some old =>
      show (if (true && !old.sameSteps path) = true then withoutRecording before.layout.folder old d
        else d) = if old.sameSteps path then d else withoutRecording before.layout.folder old d
      cases old.sameSteps path <;> rfl

/-- A recording at a path takes away what is at a position: it is at or below the recording that the
experiment had at another path, which is written as a text and can be reached. -/
def Drops (s : Session) (a : Address) (path : RawPath) (d : Disk) (q : List String) : Prop :=
  ∃ old : Path, s.recording? a = some (.ofPath old) ∧ (RawPath.ofPath old).sameSteps path = false ∧
    d.isThere s.layout.folder = true ∧ d.isThere (s.layout.folder.join old) = true ∧
    s.layout.folder.positionFrom d.working ++ old.names <+: q

theorem drops_iff {path : RawPath} {old : Path} (hold : s.recording? a = some (.ofPath old))
    (other : (RawPath.ofPath old).sameSteps path = false) {q : List String} :
    s.Drops a path d q ↔ d.isThere s.layout.folder = true ∧
      d.isThere (s.layout.folder.join old) = true ∧
      s.layout.folder.positionFrom d.working ++ old.names <+: q := by
  constructor
  · rintro ⟨_, ho, -, hrest⟩
    rw [hold] at ho
    obtain rfl := RawPath.ofPath_injective (Option.some.inj ho)
    exact hrest
  · exact fun hrest => ⟨old, hold, other, hrest⟩

theorem not_drops_of_sameSteps {path old : RawPath} (hold : s.recording? a = some old)
    (same : old.sameSteps path = true) {q : List String} : ¬ s.Drops a path d q := by
  rintro ⟨_, ho, hother, -⟩
  rw [hold] at ho
  cases ho
  rw [same] at hother
  cases hother

/-- After a recording the disk is without what it takes away, and with all the rest. -/
theorem find?_afterwards_record {path : RawPath} (h : s.IsOf c folder) (ht : t.recording? a = some path)
    (d : Disk) (q : List String) :
    (s.Drops a path d q → (afterwards s t a (.record path) d).find? q = none) ∧
      (¬ s.Drops a path d q → (afterwards s t a (.record path) d).find? q = d.find? q) := by
  rw [afterwards_record ht]
  cases hold : s.recording? a with
  | none =>
      refine ⟨?_, fun _ => rfl⟩
      rintro ⟨old, ho, -⟩
      rw [hold] at ho
      cases ho
  | some old =>
      dsimp only
      cases hsame : old.sameSteps path with
      | true => exact ⟨fun hq => absurd hq (not_drops_of_sameSteps hold hsame), fun _ => rfl⟩
      | false =>
          rw [if_neg Bool.false_ne_true]
          by_cases written : old.IsWritten
          case neg =>
            rw [withoutRecording_of_not_isWritten written]
            refine ⟨?_, fun _ => rfl⟩
            rintro ⟨p, hp, -⟩
            rw [hold] at hp
            exact absurd ⟨p, Option.some.inj hp⟩ written
          obtain ⟨old, rfl⟩ := written
          rw [drops_iff hold hsame]
          have hcontained := (RawPath.isContained_ofPath old).symm.trans (h.isContained_recording? hold)
          rcases withoutRecording_cases hcontained s.layout.folder d with
            ⟨hf, hr, hreplaces⟩ | ⟨hnot, hd⟩
          · rw [hreplaces.find?_eq]
            constructor
            · intro hq
              rw [if_pos hq.2.2]
              rfl
            · intro hq
              rw [if_neg fun hp => hq ⟨hf, hr, hp⟩]
          · rw [hd]
            exact ⟨fun hq => absurd ⟨hq.1, hq.2.1⟩ hnot, fun _ => rfl⟩

/-- What an accepted recording does to the session and to the disk. -/
theorem interact_record {path : RawPath} (h : s.IsOf c folder)
    (hi : s.interact a (.record path) d = ((t, .ok changes), d')) :
    t.recording? a = some path ∧ path.isContained = true ∧
      (∀ b, b ≠ a → t.recording? b = s.recording? b) ∧
      ∀ q, (s.Drops a path d q → d'.find? q = none) ∧
        (¬ s.Drops a path d q → d'.find? q = d.find? q) := by
  rw [interact] at hi
  rcases s.script.interact_cases a (.record path) with ⟨u, made, hu, hs⟩ | ⟨f, -, hs⟩
  · rw [hs] at hi
    obtain ⟨hpair, rfl⟩ := Prod.mk.inj hi
    obtain ⟨rfl, hchanges⟩ := Prod.mk.inj hpair
    obtain ⟨contained, hself, hothers⟩ := recording?_of_respond? hu
    have hafter : (s.following { s.script with tree := u } made).recording? a = some path := by
      rw [recording?_eq]
      exact hself
    refine ⟨hafter, contained, fun b hb => ?_, find?_afterwards_record h hafter d⟩
    rw [recording?_eq, recording?_eq]
    exact hothers b hb
  · rw [hs] at hi
    cases hi

/-- The files that an accepted recording leaves. -/
theorem find?_interact_record {path : RawPath} (h : s.IsOf c folder)
    (hi : s.interact a (.record path) d = ((t, .ok changes), d')) (q : List String)
    (content : ByteArray) : d'.find? q = some (.file content) ↔
      d.find? q = some (.file content) ∧ ¬ s.Drops a path d q := by
  obtain ⟨-, -, -, hdrops⟩ := interact_record h hi
  by_cases hq : s.Drops a path d q
  · rw [(hdrops q).1 hq]
    exact ⟨nofun, fun he => absurd hq he.2⟩
  · rw [(hdrops q).2 hq]
    exact ⟨fun he => ⟨he, hq⟩, And.left⟩

/-- What a recording does on disk before it looks where the new folder lies. -/
def copiedInto (target source : Path) (file : String) : Job Unit := do
  if ← Job.ask fun d => d.isThere target then
    Job.changeInPart s!"clear directory {target.text}" fun d => d.removeAll target
  Job.changeInPart s!"create directory {target.text}" fun d => d.makeAll target
  Job.change s!"copy experiment {source.text} to {(target.child file).text}" fun d =>
    d.copy source (target.child file)

theorem filed_eq_bind (l : Run.Layout) (target source : Path) (file : String) :
    filed l target source file = copiedInto target source file >>= fun _ =>
      Job.require s!"{target.text} is outside the run directory" (l.relative? target) := by
  rw [filed, copiedInto, bind_assoc]
  congr 1
  funext there
  split <;> simp only [bind_assoc]

/-- A file that was filed was copied first. -/
theorem copiedInto_of_filed {l : Run.Layout}
    (h : (filed l target source file).run d = (.ok recorded, d')) :
    l.relative? target = some recorded ∧ (copiedInto target source file).run d = (.ok (), d') := by
  rw [filed_eq_bind] at h
  obtain ⟨_, e, hcopied, h⟩ := Job.run_bind_eq_ok_iff.1 h
  obtain ⟨hrelative, rfl⟩ := Job.run_require_eq_ok_iff.1 h
  exact ⟨hrelative, hcopied⟩

/-- A folder that is to hold a copy is emptied if it is there, and made, and then the copy is made: of the
files those are left that were not in the folder. -/
theorem exists_copy_of_copiedInto {u : Unit}
    (h : (copiedInto target source file).run d = (.ok u, d')) :
    ∃ e : Disk, e.working = d.working ∧
      (∀ q content, e.find? q = some (.file content) ↔ d.find? q = some (.file content) ∧
        ¬ (d.isThere target = true ∧ target.positionFrom d.working <+: q)) ∧
      e.copy source (target.child file) = .ok d' := by
  -- first the folder is cleared, if it is there
  have hclear : ∃ cleared : Disk, cleared.working = d.working ∧
      (∀ q, cleared.find? q = if d.isThere target = true ∧ target.positionFrom d.working <+: q
        then none else d.find? q) ∧
      (do
        Job.changeInPart s!"create directory {target.text}" fun d => d.makeAll target
        Job.change s!"copy experiment {source.text} to {(target.child file).text}" fun d =>
          d.copy source (target.child file)).run cleared = (.ok u, d') := by
    rw [copiedInto, Job.run_bind, Job.run_ask] at h
    dsimp only at h
    cases hthere : d.isThere target with
    | false =>
        rw [hthere, if_neg Bool.false_ne_true] at h
        exact ⟨d, rfl, fun q => (if_neg fun hq => Bool.false_ne_true hq.1).symm, h⟩
    | true =>
        rw [hthere, if_pos rfl] at h
        obtain ⟨_, cleared, hremove, h⟩ := Job.run_bind_eq_ok_iff.1 h
        have hr := Disk.removeAll_eq_ok (Job.run_changeInPart_eq_ok_iff.1 hremove)
        refine ⟨cleared, hr.working, fun q => ?_, h⟩
        rw [hr.find?_eq, Option.bind_none]
        simp only [true_and]
  obtain ⟨cleared, hworking, hcleared, h⟩ := hclear
  obtain ⟨_, e, hmake, h⟩ := Job.run_bind_eq_ok_iff.1 h
  have hmakes := cleared.makes_makeAll target
  rw [Job.run_changeInPart_eq_ok_iff.1 hmake] at hmakes
  refine ⟨e, hmakes.working.trans hworking, fun q content => ?_, Job.run_change_eq_ok_iff.1 h⟩
  -- making the folder makes no file
  rw [hmakes.find?_eq_file_iff, hcleared]
  split
  · next hq => exact ⟨nofun, fun hd => absurd hq hd.2⟩
  · next hq => exact ⟨fun hd => ⟨hd, hq⟩, And.left⟩

/-- A file that was copied is found under its name in the new folder, and of the other files those are
left that are not in a folder that was there before. -/
theorem copiedInto_eq_ok (plain : IsPlain file) {u : Unit}
    (h : (copiedInto target source file).run d = (.ok u, d')) :
    d'.working = d.working ∧
      ∃ content, d.find? (source.positionFrom d.working) = some (.file content) ∧
        ∀ q other, d'.find? q = some (.file other) ↔
          q = target.positionFrom d.working ++ [file] ∧ other = content ∨
          q ≠ target.positionFrom d.working ++ [file] ∧ d.find? q = some (.file other) ∧
            ¬ (d.isThere target = true ∧ target.positionFrom d.working <+: q) := by
  obtain ⟨e, hworking, hfiles, hcopy⟩ := exists_copy_of_copiedInto h
  obtain ⟨content, hread, hwrite⟩ := Disk.copy_eq_ok hcopy
  have hfound := Disk.find?_of_read hread
  rw [hworking] at hfound
  have hfind := Disk.find?_of_write hwrite
  rw [Path.positionFrom_child target plain, hworking] at hfind
  refine ⟨(Disk.write_eq_ok hwrite).working.trans hworking, content, ((hfiles _ _).1 hfound).1, ?_⟩
  intro q other
  rw [← hfiles q other, hfind]
  split
  · next hq =>
      rw [Option.some.injEq, Found.file.injEq]
      exact ⟨fun he => Or.inl ⟨hq, he.symm⟩,
        fun he => he.elim (fun he => he.2.symm) fun he => absurd hq he.1⟩
  · next hq =>
      exact ⟨fun he => Or.inr ⟨hq, he⟩,
        fun he => he.elim (fun he => absurd he.1 hq) And.right⟩

/-- A file that was filed is found under its name in the new folder, and of the other files those are left
that are not in a folder that was there before. -/
theorem filed_eq_ok {l : Run.Layout} (plain : IsPlain file)
    (h : (filed l target source file).run d = (.ok recorded, d')) :
    l.relative? target = some recorded ∧ d'.working = d.working ∧
      ∃ content, d.find? (source.positionFrom d.working) = some (.file content) ∧
        ∀ q other, d'.find? q = some (.file other) ↔
          q = target.positionFrom d.working ++ [file] ∧ other = content ∨
          q ≠ target.positionFrom d.working ++ [file] ∧ d.find? q = some (.file other) ∧
            ¬ (d.isThere target = true ∧ target.positionFrom d.working <+: q) := by
  obtain ⟨hrelative, hcopied⟩ := copiedInto_of_filed h
  exact ⟨hrelative, copiedInto_eq_ok plain hcopied⟩

/-- A folder of a recording is recorded by its way down from the folder of the run. -/
theorem names_of_relative? (h : s.IsOf .standard folder) {name : String} (plain : IsPlain name)
    (hrelative : s.layout.relative? (s.layout.experiments.child name) = some recorded) :
    recorded.names = [Config.standard.experiments, name] ∧
      ∀ start, (s.layout.experiments.child name).positionFrom start =
        folder.positionFrom start ++ recorded.names := by
  have experiments : IsPlain Config.standard.experiments := by
    refine ⟨⟨rfl, by decide⟩, by decide⟩
  have hlayout : s.layout.experiments = folder.child Config.standard.experiments := by
    rw [h.layout]
    rfl
  have hstrip : Path.stripPrefix? folder (s.layout.experiments.child name) = some recorded := by
    rw [h.layout] at hrelative ⊢
    exact hrelative
  rw [hlayout, Path.stripPrefix?_child_child folder experiments plain] at hstrip
  have hnames : recorded.names = [Config.standard.experiments, name] := by
    rw [← Option.some.inj hstrip]
    exact Path.names_ofAnchored_here experiments plain
  refine ⟨hnames, fun start => ?_⟩
  rw [hnames, hlayout, Path.positionFrom_child _ plain, Path.positionFrom_child _ experiments,
    List.append_assoc]
  rfl

/-- Where a recording that succeeded has put its copy, and what it has done to the other files. -/
theorem record_eq_ok (h : s.IsOf .standard folder) {now : Moment}
    (hr : s.record a source now d = ((t, .ok changes), d')) :
    ∃ name file content recorded, (s.script.tree.at? a).map Component.name = some name ∧
      source.fileName? = some file ∧
      d.find? (source.positionFrom d.working) = some (.file content) ∧
      t.recording? a = some (.ofPath recorded) ∧
      recorded.names = [Config.standard.experiments, Run.nameAt now name] ∧
      (∀ b, b ≠ a → t.recording? b = s.recording? b) ∧
      let target := s.layout.experiments.child (Run.nameAt now name)
      let copied := ((s.copyRecording a source now).run d).2
      let own := target.positionFrom d.working ++ [file]
      target.positionFrom d.working = folder.positionFrom d.working ++ recorded.names ∧
      (d'.find? own = some (.file content) ↔ ¬ s.Drops a (.ofPath recorded) copied own) ∧
      ∀ q other, q ≠ own → (d'.find? q = some (.file other) ↔ d.find? q = some (.file other) ∧
        ¬ (d.isThere target = true ∧ target.positionFrom d.working <+: q) ∧
        ¬ s.Drops a (.ofPath recorded) copied q) := by
  rcases s.record_cases a source now d with ⟨f, -, hd⟩ | ⟨recorded, hcopied, hd⟩
  · rw [hr] at hd
    cases hd
  rcases s.copyRecording_cases a source now d with
    ⟨f, hf⟩ | ⟨name, state, e, file, found, hfile, hf⟩
  · rw [hf] at hcopied
    cases hcopied
  rw [hr] at hd
  have hfiled : (filed s.layout (s.layout.experiments.child (Run.nameAt now name)) source file).run d =
      (.ok recorded, ((s.copyRecording a source now).run d).2) := by
    rw [← hcopied, ← hf]
    rfl
  obtain ⟨hrelative, -, content, hcontent, hfiles⟩ :=
    filed_eq_ok (Path.isPlain_of_fileName? hfile) hfiled
  obtain ⟨hnames, hposition⟩ :=
    names_of_relative? h (Run.isPlain_nameAt now (h.isWritten.not_mem_name found)) hrelative
  obtain ⟨hself, -, hothers, -⟩ := interact_record h hd.symm
  have hleft := find?_interact_record h hd.symm
  refine ⟨name, file, content, recorded, by rw [found]; rfl, hfile, hcontent, hself, hnames, hothers,
    hposition d.working, ?_, ?_⟩
  · rw [hleft, hfiles]
    exact ⟨And.right, fun hq => ⟨Or.inl ⟨rfl, rfl⟩, hq⟩⟩
  · intro q other hq
    rw [hleft, hfiles]
    constructor
    · rintro ⟨⟨he, -⟩ | ⟨-, he, hnot⟩, hdrop⟩
      · exact absurd he hq
      · exact ⟨he, hnot, hdrop⟩
    · rintro ⟨he, hnot, hdrop⟩
      exact ⟨Or.inr ⟨hq, he, hnot⟩, hdrop⟩

/-- What survives a recording. An interaction that records a path takes away what is at or below the
recording that the experiment had at another path, and no other file. A recording of a file makes the
copy under the file's name in the folder of its moment and of the experiment's name, which is recorded,
and it takes away what was in that folder before and what an interaction would take away, and no other
file. So a file at or below the path of another experiment is still there exactly when it is in neither
place. Names on a disk are texts, so nothing is at or below a path that is not written as one. -/
theorem recordings_survive (reached : Reached .standard folder s d) (a : Address) :
    (∀ path t changes d', s.interact a (.record path) d = ((t, .ok changes), d') →
      t.recording? a = some path ∧
      (∀ p : Path, path = .ofPath p → ∀ q content, folder.positionFrom d.working ++ p.names <+: q →
        d.find? q = some (.file content) →
          (d'.find? q = some (.file content) ↔ ¬ s.Drops a path d q)) ∧
      ∀ b, b ≠ a → ∀ other, s.recording? b = some other → t.recording? b = some other ∧
        ∀ p : Path, other = .ofPath p →
          ∀ q content, folder.positionFrom d.working ++ p.names <+: q →
            d.find? q = some (.file content) →
              (d'.find? q = some (.file content) ↔ ¬ s.Drops a path d q)) ∧
    (∀ source now t changes d', s.record a source now d = ((t, .ok changes), d') →
      ∃ name file content recorded, (s.script.tree.at? a).map Component.name = some name ∧
        source.fileName? = some file ∧
        d.find? (source.positionFrom d.working) = some (.file content) ∧
        t.recording? a = some (.ofPath recorded) ∧
        recorded.names = [Config.standard.experiments, Run.nameAt now name] ∧
        let target := s.layout.experiments.child (Run.nameAt now name)
        let copied := ((s.copyRecording a source now).run d).2
        let folder := folder.positionFrom d.working
        let own := folder ++ recorded.names ++ [file]
        (d'.find? own = some (.file content) ↔ ¬ s.Drops a (.ofPath recorded) copied own) ∧
        ∀ b, b ≠ a → ∀ other, s.recording? b = some other → t.recording? b = some other ∧
          ∀ p : Path, other = .ofPath p → ∀ q before, folder ++ p.names <+: q → q ≠ own →
            d.find? q = some (.file before) →
              (d'.find? q = some (.file before) ↔
                ¬ (d.isThere target = true ∧ folder ++ recorded.names <+: q) ∧
                ¬ s.Drops a (.ofPath recorded) copied q)) := by
  have h := reached.isOf
  refine ⟨?_, ?_⟩
  · intro path t changes d' hi
    obtain ⟨hself, -, hothers, -⟩ := interact_record h hi
    have hleft : ∀ q content, d.find? q = some (.file content) →
        (d'.find? q = some (.file content) ↔ ¬ s.Drops a path d q) := by
      intro q content hq
      rw [find?_interact_record h hi q content]
      exact ⟨And.right, fun hnot => ⟨hq, hnot⟩⟩
    refine ⟨hself, fun _ _ q content _ hq => hleft q content hq, fun b hb other ho => ?_⟩
    exact ⟨(hothers b hb).trans ho, fun _ _ q content _ hq => hleft q content hq⟩
  · intro source now t changes d' hr
    obtain ⟨name, file, content, recorded, hname, hfile, hcontent, hself, hnames, hothers, hposition,
      hown, hleft⟩ := record_eq_ok h hr
    refine ⟨name, file, content, recorded, hname, hfile, hcontent, hself, hnames, ?_⟩
    rw [hposition] at hown hleft
    refine ⟨hown, fun b hb other ho => ⟨(hothers b hb).trans ho, fun _ _ q before _ hne hq => ?_⟩⟩
    rw [hleft q before hne]
    exact ⟨And.right, fun hnot => ⟨hq, hnot⟩⟩

/-- A disk with a script of two sheets, each with an experiment of one name, and two files to record. -/
def twoSwings : Disk :=
  let sheet (name : String) := "\x7b\"component\":\x7b\"type\":\"sheet\",\"name\":\"" ++ name ++
    "\",\"items\":[\x7b\"type\":\"experiment\",\"sensor\":\"camera\",\"name\":\"swing\"\x7d]\x7d\x7d"
  let text := "\x7b\"title\":\"T\",\"pages\":[" ++ sheet "a" ++ "," ++ sheet "b" ++ "]\x7d"
  ⟨.file "one.csv" "1".toUTF8 (.file "s.json" text.toUTF8 (.file "two.csv" "2".toUTF8 .nil)), []⟩

/-- The session of the script of `twoSwings`. -/
def swings : Session :=
  let sheet (name : String) := Component.ofItems name .vertical [.ofExperiment "swing" .camera ""]
  let tree := (((Tree.new (sheet "a")).addNext 0 (sheet "b")).toOption.map Prod.fst).getD .empty
  (attached .standard (.new "T" tree) ⟨"run"⟩ ⟨"s.json"⟩ "s.json").atStart

/-- The disk after the script of `twoSwings` was started. -/
def swingsStarted : Disk := (twoSwings.makeAll ⟨"run"⟩).1

theorem reached_swings : Reached .standard ⟨"run"⟩ swings swingsStarted := by
  have hstart : (start .standard ⟨"s.json"⟩ ⟨"run"⟩).run twoSwings = (.ok swings, swingsStarted) := by
    refine run_start_of_file (p := ["s.json"]) (by decide) (by rfl) (by rfl) (by rfl) ?_ (by rfl)
    apply Source.script_of_ofList
    · repeat' apply Source.append_eq_ofList
      all_goals exact rfl
    · decide +kernel
  exact .started (by rfl) hstart

/-- A moment on a day in May. -/
def inMay : Moment := ⟨2014, 5, 1, 10, 15, 30⟩

/-- The session and the disk after the first of the two experiments was recorded. -/
def firstSwing : (Session × Except Failure Unit) × Disk :=
  swings.act (.record ⟨0, [0]⟩ ⟨"one.csv"⟩ inMay) swingsStarted

theorem recordings_survive_first :
    firstSwing.2.find? ["run", "experiments", "2014-05-01_10-15-30_swing", "one.csv"] =
      some (.file "1".toUTF8) := by
  have hsome : (swings.record ⟨0, [0]⟩ ⟨"one.csv"⟩ inMay swingsStarted).1.2.toOption.isSome =
      true := by rfl
  obtain ⟨t, changes, d', hr⟩ := Success.exists_of_isSome_snd hsome
  have hfirst : firstSwing.2 = d' := by
    rw [firstSwing, act, hr]
  rw [hfirst]
  obtain ⟨name, file, content, recorded, hname, hfile, hcontent, -, hnames, hown, -⟩ :=
    (recordings_survive reached_swings ⟨0, [0]⟩).2 ⟨"one.csv"⟩ inMay t changes d' hr
  have hswing : (swings.script.tree.at? ⟨0, [0]⟩).map Component.name = some "swing" := by rfl
  rw [hname] at hswing
  cases hswing
  have hone : (⟨"one.csv"⟩ : Path).fileName? = some "one.csv" := by decide
  rw [hfile] at hone
  cases hone
  have hdata : swingsStarted.find? ((⟨"one.csv"⟩ : Path).positionFrom swingsStarted.working) =
      some (.file "1".toUTF8) := by rfl
  rw [hcontent] at hdata
  cases hdata
  have hposition : (⟨"run"⟩ : Path).positionFrom swingsStarted.working ++ recorded.names ++
      ["one.csv"] = ["run", "experiments", "2014-05-01_10-15-30_swing", "one.csv"] := by
    rw [hnames]
    rfl
  rw [hposition] at hown
  apply hown.2
  rintro ⟨old, hold, -⟩
  have hnone : swings.recording? ⟨0, [0]⟩ = none := by rfl
  rw [hnone] at hold
  cases hold

/-- A recording takes away the files of another experiment, if both have one name and are recorded in one
second. -/
theorem not_recordings_survive : ¬ ∀ (folder : Path) (s : Session) (d : Disk),
    Reached .standard folder s d → ∀ a source now t changes d',
      s.record a source now d = ((t, .ok changes), d') →
        ∀ b, b ≠ a → ∀ other : Path, s.recording? b = some (.ofPath other) →
          ∀ q content, folder.positionFrom d.working ++ other.names <+: q →
            d.find? q = some (.file content) → d'.find? q = some (.file content) := by
  intro h
  have hgone : (firstSwing.1.1.record ⟨1, [0]⟩ ⟨"two.csv"⟩ inMay firstSwing.2).1.2.toOption.isSome =
        true ∧
      (firstSwing.1.1.record ⟨1, [0]⟩ ⟨"two.csv"⟩ inMay firstSwing.2).2.find?
        ["run", "experiments", "2014-05-01_10-15-30_swing", "one.csv"] = none := by
    decide +kernel
  obtain ⟨t, changes, d', hr⟩ := Success.exists_of_isSome_snd hgone.1
  rw [hr] at hgone
  have hbefore : firstSwing.1.1.recording? ⟨0, [0]⟩ =
        some (.ofPath ⟨"experiments/2014-05-01_10-15-30_swing"⟩) ∧
      (⟨"run"⟩ : Path).positionFrom firstSwing.2.working ++
          (⟨"experiments/2014-05-01_10-15-30_swing"⟩ : Path).names <+:
        ["run", "experiments", "2014-05-01_10-15-30_swing", "one.csv"] ∧
      firstSwing.2.find? ["run", "experiments", "2014-05-01_10-15-30_swing", "one.csv"] =
        some (.file "1".toUTF8) := by
    decide +kernel
  obtain ⟨hrecorded, hbelow, hfile⟩ := hbefore
  have hlost := h ⟨"run"⟩ firstSwing.1.1 firstSwing.2
    (reached_swings.acted (.record ⟨0, [0]⟩ ⟨"one.csv"⟩ inMay)) ⟨1, [0]⟩ ⟨"two.csv"⟩ inMay t changes d' hr
    ⟨0, [0]⟩ (by decide) _ hrecorded _ _ hbelow hfile
  rw [hgone.2] at hlost
  cases hlost

end Session

end GuidedLab
