import GuidedLab.Proofs.Disk.Opens
import GuidedLab.Proofs.Script.Independence
import GuidedLab.Proofs.Session.Recordings

/-!
# What a failed recording loses

A recording clears the folder for its copy before it copies the file, and the folder is named by the
second and the name of the experiment. So a recording that fails leaves the script and the page as they
are, but not every file: what was in a folder of that second and name is gone, the recording in use
included (`failed_recording_loses`). All other files are still there.

A recording can also fail after its file was copied, where the copy is not at a path below the run. This
needs experiments that do not lie in a folder of their own (`Files.exists_record`); then the copy has
replaced a file of its name, and holds what the source holds.
-/

namespace GuidedLab

open Disk (Replaces)
open GuidedLab.Path (IsPlain)

namespace Path

/-- Two plain names make a path that is contained. -/
theorem isContained_ofAnchored_here {x y : String} (hx : IsPlain x) (hy : IsPlain y) :
    (ofAnchored .here [x, y]).isContained = true := by
  have hbody : IsBody .here [x, y] := by
    refine ⟨?_, fun _ => Or.inr ⟨x, [y], rfl, hx.meant⟩⟩
    intro s hs
    rcases List.mem_cons.1 hs with rfl | hs
    · exact hx.whole
    · rw [List.mem_singleton.1 hs]
      exact hy.whole
  have hsteps : (ofAnchored .here [x, y]).steps = [.name x, .name y] := by
    rw [steps, anchor, body, anchored_ofAnchored hbody (List.cons_ne_nil _ _)]
    simp [Anchor.step?, stepsOf, Step.ofSegment, hx.meant, hy.meant, hx.down, hy.down]
  rw [isContained, hsteps]
  rfl

end Path

namespace Disk

variable {d d' : Disk} {name : String}

theorem isThere_of_isFolder {path : Path} (h : d.isFolder path = true) : d.isThere path = true := by
  rw [isThere, place_of_isFolder h]

/-- What is taken away by a plain name is a folder, and it is taken away as a whole. -/
theorem removeAll_child_cases (plain : IsPlain name) (folder : Path) (d : Disk) :
    (d.isFolder (folder.child name) = true ∧ ∃ e, d.removeAll (folder.child name) = (e, .ok ()) ∧
      Replaces ((folder.child name).positionFrom d.working) none d e) ∨
    d.isFolder (folder.child name) = false ∧ ∃ r, d.removeAll (folder.child name) = (d, .error r) := by
  cases hf : d.isFolder (folder.child name) with
  | true =>
      have hplace := place_of_isFolder hf
      have hne : (folder.child name).positionFrom d.working ≠ [] := by
        rw [Path.positionFrom_child folder plain]
        simp
      exact Or.inl ⟨rfl, exists_removeAll hplace (endsInName_of_isPlain plain folder) hne⟩
  | false =>
      have hnot : ∀ p, d.place (folder.child name) ≠ .ok (.folder p) := by
        intro p hp
        rw [isFolder, hp] at hf
        cases hf
      rcases d.removeAll_cases (folder.child name) with ⟨p, hp, -⟩ | ⟨p, r, hp, -⟩ | hr
      · exact absurd hp (hnot p)
      · exact absurd hp (hnot p)
      · exact Or.inr ⟨rfl, hr⟩

end Disk

namespace Session

variable {c : Config} {folder source : Path} {s t : Session} {d d₀ d' : Disk} {a : Address}
  {name file : String} {now : Moment} {f : Failure}

/-! ### Files after a copy that failed -/

/-- Making a folder and copying a file into it takes no file away if it fails. -/
theorem find?_of_made_error {context context' : String} {target : Path} {e : Disk}
    (h : (do
      Job.changeInPart context fun d => d.makeAll target
      Job.change context' fun d => d.copy source (target.child file)).run e = (.error f, d'))
    (q : List String) (other : ByteArray) :
    d'.find? q = some (.file other) ↔ e.find? q = some (.file other) := by
  have hmakes := e.makes_makeAll target
  rw [Job.run_bind, Job.run_changeInPart] at h
  cases hm : e.makeAll target with
  | mk e' r =>
      rw [hm] at h hmakes
      cases r with
      | error r =>
          cases h
          exact hmakes.find?_eq_file_iff
      | ok _ =>
          have h : (Job.change context' fun d => d.copy source (target.child file)).run e' =
              (.error f, d') := h
          rw [Job.run_change] at h
          cases hc : e'.copy source (target.child file) with
          | error r =>
              rw [hc] at h
              cases h
              exact hmakes.find?_eq_file_iff
          | ok e'' =>
              rw [hc] at h
              cases h

/-- A copy that failed has cleared its folder, if that was there, and taken away no other file. -/
theorem copiedInto_eq_error (plain : IsPlain name)
    (h : (copiedInto (folder.child name) source file).run d = (.error f, d')) (q : List String)
    (other : ByteArray) :
    d'.find? q = some (.file other) ↔ d.find? q = some (.file other) ∧
      ¬ (d.isFolder (folder.child name) = true ∧ (folder.child name).positionFrom d.working <+: q) := by
  rw [copiedInto, Job.run_bind, Job.run_ask] at h
  dsimp only at h
  cases hthere : d.isThere (folder.child name) with
  | false =>
      have hnot : d.isFolder (folder.child name) ≠ true := by
        intro hf
        rw [Disk.isThere_of_isFolder hf] at hthere
        cases hthere
      rw [hthere, if_neg Bool.false_ne_true] at h
      rw [find?_of_made_error h]
      exact ⟨fun hd => ⟨hd, fun hf => hnot hf.1⟩, And.left⟩
  | true =>
      rw [hthere, if_pos rfl, Job.run_bind, Job.run_changeInPart] at h
      rcases Disk.removeAll_child_cases plain folder d with ⟨hf, e, he, hr⟩ | ⟨hf, r, he⟩
      · rw [he] at h
        rw [find?_of_made_error h, hr.find?_eq]
        split
        · next hq =>
            refine ⟨?_, fun hd => absurd ⟨hf, hq⟩ hd.2⟩
            rintro ⟨⟩
        · next hq => exact ⟨fun hd => ⟨hd, fun hn => hq hn.2⟩, And.left⟩
      · rw [he] at h
        cases h
        rw [hf]
        exact ⟨fun hd => ⟨hd, fun hn => Bool.false_ne_true hn.1⟩, And.left⟩

/-- Where a copy succeeds, what is there under the name of its folder is a folder. -/
theorem isThere_iff_of_copiedInto (plain : IsPlain name) {u : Unit}
    (h : (copiedInto (folder.child name) source file).run d = (.ok u, d')) :
    d.isThere (folder.child name) = true ↔ d.isFolder (folder.child name) = true := by
  refine ⟨?_, Disk.isThere_of_isFolder⟩
  intro hthere
  rcases Disk.removeAll_child_cases plain folder d with ⟨hf, -⟩ | ⟨-, r, he⟩
  · exact hf
  · rw [copiedInto, Job.run_bind, Job.run_ask] at h
    dsimp only at h
    rw [hthere, if_pos rfl, Job.run_bind, Job.run_changeInPart, he] at h
    cases h

/-! ### Recordings that fail -/

/-- An interaction that is refused leaves the tree, the page and the disk. -/
theorem interact_eq_error {i : Interaction} (h : s.interact a i d = ((t, .error f), d')) :
    t.script.tree = s.script.tree ∧ t.bookmark = s.bookmark ∧ d' = d := by
  rw [interact] at h
  rcases s.script.interact_cases a i with ⟨u, changes, -, hs⟩ | ⟨g, -, hs⟩ <;> rw [hs] at h
  · cases h
  · cases h
    exact ⟨rfl, rfl, rfl⟩

/-- The component at an address is an experiment of a name, and a path leads to a file of a name. -/
def Files (s : Session) (a : Address) (source : Path) (name file : String) : Prop :=
  (∃ state e, s.script.tree.at? a = some (.leaf name state (.experiment e))) ∧
    source.fileName? = some file

/-- The folder that a recording at a moment is copied into. -/
def target (s : Session) (name : String) (now : Moment) : Path :=
  s.layout.experiments.child (Run.nameAt now name)

/-- A recording clears what is at a position: there is a folder already where it makes its own. -/
def Clears (s : Session) (a : Address) (source : Path) (now : Moment) (d : Disk) (q : List String) :
    Prop :=
  ∃ name file, s.Files a source name file ∧ d.isFolder (s.target name now) = true ∧
    (s.target name now).positionFrom d.working <+: q

/-- A recording puts its copy at a position. -/
def Copies (s : Session) (a : Address) (source : Path) (now : Moment) (d : Disk) (q : List String) :
    Prop :=
  ∃ name file, s.Files a source name file ∧
    ((copiedInto (s.target name now) source file).run d).1 = .ok () ∧
    q = (s.target name now).positionFrom d.working ++ [file]

theorem Files.unique {name' file' : String} (h : s.Files a source name file)
    (h' : s.Files a source name' file') : name' = name ∧ file' = file := by
  obtain ⟨⟨state, e, he⟩, hfile⟩ := h
  obtain ⟨⟨state', e', he'⟩, hfile'⟩ := h'
  rw [he] at he'
  rw [hfile] at hfile'
  cases he'
  cases hfile'
  exact ⟨rfl, rfl⟩

theorem Files.clears_iff (h : s.Files a source name file) {q : List String} :
    s.Clears a source now d q ↔ d.isFolder (s.target name now) = true ∧
      (s.target name now).positionFrom d.working <+: q := by
  constructor
  · rintro ⟨name', file', h', hq⟩
    obtain ⟨rfl, rfl⟩ := h.unique h'
    exact hq
  · exact fun hq => ⟨name, file, h, hq⟩

theorem Files.copies_iff (h : s.Files a source name file) {q : List String} :
    s.Copies a source now d q ↔ ((copiedInto (s.target name now) source file).run d).1 = .ok () ∧
      q = (s.target name now).positionFrom d.working ++ [file] := by
  constructor
  · rintro ⟨name', file', h', hq⟩
    obtain ⟨rfl, rfl⟩ := h.unique h'
    exact hq
  · exact fun hq => ⟨name, file, h, hq⟩

theorem Files.run_copyRecording (h : s.Files a source name file) (now : Moment) (d : Disk) :
    (s.copyRecording a source now).run d =
      (filed s.layout (s.target name now) source file).run d := by
  obtain ⟨⟨state, e, he⟩, hfile⟩ := h
  rw [copyRecording, he, Job.require_some_bind]
  dsimp only [Component.name]
  rw [hfile, Job.require_some_bind]
  rfl

/-- A recording that fails was refused at once, or its copy failed, or it was refused with the copy made.
-/
theorem record_error_cases (h : s.record a source now d = ((t, .error f), d')) :
    t.script.tree = s.script.tree ∧ t.bookmark = s.bookmark ∧
      ((∀ name file, ¬ s.Files a source name file) ∧ d' = d ∨
        ∃ name file, s.Files a source name file ∧
          ((∃ g, (copiedInto (s.target name now) source file).run d = (.error g, d')) ∨
            (copiedInto (s.target name now) source file).run d = (.ok (), d'))) := by
  rcases s.record_cases a source now d with ⟨g, hg, hd⟩ | ⟨recorded, hrecorded, hd⟩
  · rw [h] at hd
    cases hd
    refine ⟨rfl, rfl, ?_⟩
    by_cases hex : ∃ name file, s.Files a source name file
    · obtain ⟨name, file, hfiles⟩ := hex
      refine Or.inr ⟨name, file, hfiles, ?_⟩
      rw [hfiles.run_copyRecording, filed_eq_bind, Job.run_bind]
      cases (copiedInto (s.target name now) source file).run d with
      | mk r e =>
          cases r with
          | error g => exact Or.inl ⟨g, rfl⟩
          | ok _ =>
              dsimp only
              cases s.layout.relative? (s.target name now) <;> exact Or.inr rfl
    · have hnone : ∀ name file, ¬ s.Files a source name file :=
        fun name file hfiles => hex ⟨name, file, hfiles⟩
      rcases s.copyRecording_cases a source now d with ⟨g, hg⟩ | ⟨name, state, e, file, he, hfile, -⟩
      · exact Or.inl ⟨hnone, by rw [hg]⟩
      · exact absurd ⟨⟨state, e, he⟩, hfile⟩ (hnone name file)
  · rw [h] at hd
    obtain ⟨htree, hbookmark, hdisk⟩ := interact_eq_error hd.symm
    refine ⟨htree, hbookmark, ?_⟩
    rcases s.copyRecording_cases a source now d with ⟨g, hg⟩ | ⟨name, state, e, file, he, hfile, hg⟩
    · rw [hg] at hrecorded
      cases hrecorded
    · have hfiles : s.Files a source name file := ⟨⟨state, e, he⟩, hfile⟩
      rw [hfiles.run_copyRecording] at hrecorded hdisk
      have hcopied := (copiedInto_of_filed (Prod.ext hrecorded hdisk.symm)).2
      exact Or.inr ⟨name, file, hfiles, Or.inr hcopied⟩

/-- An experiment takes every path below the run. -/
theorem exists_interact_record {state : State} {e : Experiment} {path : RawPath}
    (found : s.script.tree.at? a = some (.leaf name state (.experiment e)))
    (contained : path.isContained = true) (d : Disk) :
    ∃ t changes d', s.interact a (.record path) d = ((t, .ok changes), d') := by
  have hreact : (Component.leaf name state (.experiment e)).react? (.record path) = .ok _ :=
    Component.react?_eq_ok_iff.2 (.leaf name state (.record path e contained))
  have houtcome := Script.outcome_interact_of_at? (i := .record path) found
  rcases s.script.interact_cases a (.record path) with ⟨u, changes, -, hi⟩ | ⟨g, -, hi⟩
  · exact ⟨_, changes, _, by rw [interact, hi]⟩
  · rw [hi, hreact] at houtcome
    cases houtcome

/-- Where experiments lie in a folder of their own, a recording does not fail once its file was copied. -/
theorem Files.exists_record (h : s.Files a source name file) (hs : s.IsOf c folder)
    (named : IsPlain c.experiments)
    (copied : ((copiedInto (s.target name now) source file).run d).1 = .ok ()) :
    ∃ t changes d', s.record a source now d = ((t, .ok changes), d') := by
  obtain ⟨state, e, he⟩ := h.1
  have plain : IsPlain (Run.nameAt now name) := Run.isPlain_nameAt now (hs.isWritten.not_mem_name he)
  have hrelative : s.layout.relative? (s.target name now) =
      some (.ofAnchored .here [c.experiments, Run.nameAt now name]) := by
    rw [target, hs.layout]
    exact Path.stripPrefix?_child_child folder named plain
  have hcopied : (s.copyRecording a source now).run d =
      (.ok (.ofAnchored .here [c.experiments, Run.nameAt now name]),
        ((copiedInto (s.target name now) source file).run d).2) := by
    rw [h.run_copyRecording, filed_eq_bind, Job.run_bind]
    cases hrun : (copiedInto (s.target name now) source file).run d with
    | mk r e =>
        rw [hrun] at copied
        cases copied
        dsimp only
        rw [hrelative]
        rfl
  rcases s.record_cases a source now d with ⟨g, hg, -⟩ | ⟨recorded, hrecorded, hd⟩
  · rw [hcopied] at hg
    cases hg
  · rw [hcopied] at hrecorded
    cases hrecorded
    rw [hd]
    refine exists_interact_record he ?_ _
    rw [RawPath.isContained_ofPath]
    exact Path.isContained_ofAnchored_here named plain

/-- Where a file is after it was tried to copy another one: it is there unless it was cleared, and where
the copy is, it is there if it is like the copy. -/
theorem Files.survives_iff (h : s.Files a source name file) (plain : IsPlain (Run.nameAt now name))
    (copied : (∃ g, (copiedInto (s.target name now) source file).run d = (.error g, d')) ∨
      (copiedInto (s.target name now) source file).run d = (.ok (), d'))
    {q : List String} {content : ByteArray} (hq : d.find? q = some (.file content)) :
    (¬ s.Copies a source now d q →
      (d'.find? q = some (.file content) ↔ ¬ s.Clears a source now d q)) ∧
    (s.Copies a source now d q → (d'.find? q = some (.file content) ↔
      d.find? (source.positionFrom d.working) = some (.file content))) := by
  rw [h.clears_iff]
  rcases copied with ⟨g, hg⟩ | hg
  · have hcopies : ¬ s.Copies a source now d q := by
      rw [h.copies_iff, hg]
      exact fun hok => nomatch hok.1
    refine ⟨fun _ => ?_, fun hq => absurd hq hcopies⟩
    rw [copiedInto_eq_error plain hg]
    exact ⟨And.right, fun hclears => ⟨hq, hclears⟩⟩
  · have hcopies : s.Copies a source now d q ↔
        q = (s.target name now).positionFrom d.working ++ [file] := by
      rw [h.copies_iff, hg]
      exact ⟨And.right, fun he => ⟨rfl, he⟩⟩
    have hthere : d.isThere (s.target name now) = true ↔ d.isFolder (s.target name now) = true :=
      isThere_iff_of_copiedInto plain hg
    obtain ⟨-, made, hsource, hleft⟩ := copiedInto_eq_ok (Path.isPlain_of_fileName? h.2) hg
    rw [hcopies, hleft, hsource, hthere]
    constructor
    · intro hne
      constructor
      · rintro (⟨he, -⟩ | ⟨-, -, hnot⟩)
        · exact absurd he hne
        · exact hnot
      · exact fun hnot => Or.inr ⟨hne, hq, hnot⟩
    · intro he
      constructor
      · rintro (⟨-, rfl⟩ | ⟨hne, -⟩)
        · rfl
        · exact absurd he hne
      · rintro ⟨⟩
        exact Or.inl ⟨he, rfl⟩

/-- What a recording that fails leaves: the script and the page, and every file that was not in a folder
at the place of the copy. The copy itself is made by a recording that fails only where experiments do
not lie in a folder of their own. -/
theorem failed_recording_loses (reached : Reached c folder s d₀)
    (h : s.record a source now d = ((t, .error f), d')) :
    t.script.tree = s.script.tree ∧ t.bookmark = s.bookmark ∧
    (IsPlain c.experiments → ∀ q, ¬ s.Copies a source now d q) ∧
    ∀ q content, d.find? q = some (.file content) →
      (¬ s.Copies a source now d q →
        (d'.find? q = some (.file content) ↔ ¬ s.Clears a source now d q)) ∧
      (s.Copies a source now d q → (d'.find? q = some (.file content) ↔
        d.find? (source.positionFrom d.working) = some (.file content))) := by
  have hs := reached.isOf
  obtain ⟨htree, hbookmark, ⟨hnone, rfl⟩ | ⟨name, file, hfiles, hcopied⟩⟩ := record_error_cases h
  · have hclears : ∀ q, ¬ s.Clears a source now d' q :=
      fun _ ⟨name, file, hf, _⟩ => hnone name file hf
    have hcopies : ∀ q, ¬ s.Copies a source now d' q :=
      fun _ ⟨name, file, hf, _⟩ => hnone name file hf
    refine ⟨htree, hbookmark, fun _ => hcopies, ?_⟩
    intro q content hq
    exact ⟨fun _ => ⟨fun _ => hclears q, fun _ => hq⟩, fun hc => absurd hc (hcopies q)⟩
  · obtain ⟨state, e, he⟩ := hfiles.1
    have plain : IsPlain (Run.nameAt now name) :=
      Run.isPlain_nameAt now (hs.isWritten.not_mem_name he)
    refine ⟨htree, hbookmark, ?_, fun q content hq => hfiles.survives_iff plain hcopied hq⟩
    intro named q hq
    obtain ⟨u, changes, e, hr⟩ := hfiles.exists_record hs named (hfiles.copies_iff.1 hq).1
    rw [h] at hr
    cases hr

theorem reached_firstSwing : Reached .standard ⟨"run"⟩ firstSwing.1.1 firstSwing.2 :=
  reached_swings.acted (.record ⟨0, [0]⟩ ⟨"one.csv"⟩ inMay)

/-- The second after `inMay`. -/
def secondLater : Moment := ⟨2014, 5, 1, 10, 15, 31⟩

/-- Recording a file that is not there, for the first experiment after it was recorded. -/
def failedSwing (now : Moment) : (Session × Except Failure (List Tree.Change)) × Disk :=
  firstSwing.1.1.record ⟨0, [0]⟩ ⟨"missing.csv"⟩ now firstSwing.2

theorem exists_failedSwing {now : Moment} (h : (failedSwing now).1.2.toOption.isSome = false) :
    ∃ t f d', failedSwing now = ((t, .error f), d') := by
  rcases hr : failedSwing now with ⟨⟨t, r⟩, d'⟩
  rw [hr] at h
  cases r with
  | error f => exact ⟨t, f, d', rfl⟩
  | ok changes => cases h

/-- The first recording as it is found before a failure and after it, in the same second and in the
next. -/
theorem firstSwing_failed :
    (firstSwing.2.working = [] ∧
      firstSwing.2.find? ["run", "experiments", "2014-05-01_10-15-30_swing", "one.csv"] =
        some (.file "1".toUTF8)) ∧
    ((failedSwing inMay).1.2.toOption.isSome = false ∧
      (failedSwing inMay).2.find? ["run", "experiments", "2014-05-01_10-15-30_swing", "one.csv"] =
        none) ∧
    (failedSwing secondLater).1.2.toOption.isSome = false ∧
      (firstSwing.1.1.script.tree.at? ⟨0, [0]⟩).map Component.name = some "swing" ∧
      firstSwing.2.isFolder (firstSwing.1.1.target "swing" secondLater) = false := by
  decide +kernel

/-- In the next second, the recording is still there after the failure. -/
theorem failed_recording_loses_nextSecond :
    (failedSwing secondLater).1.2.toOption.isSome = false ∧
      (failedSwing secondLater).2.find?
        ["run", "experiments", "2014-05-01_10-15-30_swing", "one.csv"] =
          some (.file "1".toUTF8) := by
  obtain ⟨⟨-, hfile⟩, -, hfails, hswing, hfree⟩ := firstSwing_failed
  obtain ⟨t, f, d', hr⟩ := exists_failedSwing hfails
  obtain ⟨-, -, hcopies, hleft⟩ := failed_recording_loses reached_firstSwing hr
  have experiments : IsPlain Config.standard.experiments := ⟨⟨rfl, by decide⟩, by decide⟩
  refine ⟨hfails, ?_⟩
  rw [hr]
  apply ((hleft _ _ hfile).1 (hcopies experiments _)).2
  rintro ⟨name, file, ⟨⟨state, e, he⟩, -⟩, hfolder, -⟩
  rw [he] at hswing
  cases hswing
  rw [hfolder] at hfree
  cases hfree

/-- A recording that fails takes the recording of the same second and name away. -/
theorem not_failed_recording_keeps : ¬ ∀ (folder : Path) (s : Session) (d : Disk),
    Reached .standard folder s d → ∀ a source now t f d',
      s.record a source now d = ((t, .error f), d') →
        ∀ q content, folder.positionFrom d.working <+: q → d.find? q = some (.file content) →
          d'.find? q = some (.file content) := by
  intro h
  obtain ⟨⟨hworking, hfile⟩, ⟨hfails, hgone⟩, -⟩ := firstSwing_failed
  have hbelow : (⟨"run"⟩ : Path).positionFrom firstSwing.2.working <+:
      ["run", "experiments", "2014-05-01_10-15-30_swing", "one.csv"] := by
    rw [hworking]
    decide
  obtain ⟨t, f, d', hr⟩ := exists_failedSwing hfails
  rw [hr] at hgone
  have hlost := h ⟨"run"⟩ firstSwing.1.1 firstSwing.2 reached_firstSwing ⟨0, [0]⟩ ⟨"missing.csv"⟩ inMay
    t f d' hr _ _ hbelow hfile
  rw [hgone] at hlost
  cases hlost

end Session

end GuidedLab
