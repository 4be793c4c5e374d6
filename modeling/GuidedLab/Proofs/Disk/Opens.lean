import GuidedLab.Proofs.Disk.Confined

/-!
# Working in a folder

A path *opens* its folder when it leads there and takes no way through the folder (`Disk.Opens`). Then
nothing that is done below the folder keeps the path from leading there (`Opens.of_changesBelow`), and
what a name in the folder stands for is told by what is found at one position.

Replacing the text of a file in such a folder leaves the text in the file, nothing under the name of the
draft, and everything else as it was (`Job.replaceText_eq_ok`). It succeeds whenever both names can be
used in the folder and neither is the name of a folder (`Job.exists_replaceText`).
-/

namespace GuidedLab

open GuidedLab.Path (IsPlain)

/-- A text is read back from its bytes, and from no others. -/
theorem fromUTF8?_eq_some_iff {content : ByteArray} {text : String} :
    String.fromUTF8? content = some text ↔ content = text.toUTF8 := by
  rw [String.fromUTF8?]
  split
  · next valid =>
      constructor
      · rintro ⟨⟩
        rfl
      · rintro rfl
        rfl
  · next invalid =>
      constructor
      · nofun
      · rintro rfl
        exact absurd text.isValidUTF8 invalid

namespace Path

variable {start : List String} {name : String}

/-- A path that takes no way through the folder it leads to. -/
def IsDirect (start : List String) (p : Path) : Prop :=
  ∀ q, p.Passes start q → ¬ (p.positionFrom start <+: q ∧ q ≠ p.positionFrom start)

/-- A path that never leads up passes what is on the way down. -/
theorem prefix_of_passes {p : Path} (down : ".." ∉ p.segments) {q : List String}
    (hq : p.Passes start q) : q <+: p.positionFrom start := by
  have hdown : ∀ b, b <+: p.segments → ∀ s ∈ b, isIdle s = false → s ≠ ".." := by
    rintro b hb s hs - rfl
    exact down (hb.subset hs)
  obtain ⟨b, hb, rfl⟩ := hq
  show _ <+: walk (p.base start) p.segments
  rw [walk_of_down (hdown b hb), walk_of_down (hdown _ List.prefix_rfl)]
  exact List.prefix_append_right_inj _ |>.2 (hb.filter _)

/-- A path that never leads up takes no way through its folder. -/
theorem isDirect_of_down {p : Path} (down : ".." ∉ p.segments) (start : List String) :
    p.IsDirect start := by
  rintro q hq ⟨hpre, hne⟩
  have hway := prefix_of_passes down hq
  exact hne (hway.eq_of_length (Nat.le_antisymm hway.length_le hpre.length_le))

/-- The path without what means nothing at its end. -/
def trimmed (p : Path) : Path := ofAnchored p.anchor (trimEnd p.body)

theorem join_cons_cons (first second : String) (rest : List String) :
    Text.join '/' (first :: second :: rest) = first ++ "/" ++ Text.join '/' (second :: rest) := by
  apply String.toList_inj.1
  simp only [Text.join, List.map_cons, Text.joined_cons_cons, String.toList_ofList,
    String.toList_append]
  simp

/-- Nothing of a path is lost by taking it apart. -/
theorem ofAnchored_anchored (p : Path) : ofAnchored p.anchor p.body = p := by
  have htext : Text.join '/' p.segments = p.text := Text.join_split '/' p.text
  have hp : ∀ q : Path, q.text = p.text → q = p := by
    rintro ⟨text⟩ rfl
    rfl
  apply hp
  rcases p.segments_cases with ⟨ha, hseg, -⟩ | ⟨ha, hseg, hne⟩ | ⟨ha, hseg⟩
  · rw [ha, ofAnchored, ← hseg]
    exact htext
  · obtain ⟨s, rest, hbody⟩ := List.exists_cons_of_ne_nil hne
    rw [hseg, hbody, join_cons_cons] at htext
    rw [ha, ofAnchored, hbody, ← htext]
    rfl
  · rw [hseg] at htext
    rw [ha, ofAnchored, ← htext]
    cases p.body with
    | nil => rfl
    | cons s rest =>
        rw [join_cons_cons]
        rfl

/-- There is nothing to take off after a name. -/
theorem trimmed_child (p : Path) (plain : IsPlain name) : (p.child name).trimmed = p.child name := by
  obtain ⟨first, -, -, hbody⟩ := p.exists_anchored_child plain.toIsSegment
  have htrim : trimEnd (p.child name).body = (p.child name).body := by
    rw [hbody, trimEnd_append_plain first plain.meant]
  rw [trimmed, htrim, ofAnchored_anchored]

end Path

namespace Disk

variable {d d' e : Disk} {folder : Path} {p segments : List String} {name other text : String}
  {content : ByteArray}

/-- A path that leads to its folder and takes no way through it. -/
structure Opens (d : Disk) (folder : Path) : Prop where
  place : d.place folder = .ok (.folder (folder.positionFrom d.working))
  direct : folder.IsDirect d.working

theorem Opens.find?_of_passes (h : d.Opens folder) {q : List String}
    (hq : folder.Passes d.working q) : d.find? q = some .folder :=
  Disk.find?_of_passes h.place hq

theorem Opens.find? (h : d.Opens folder) :
    d.find? (folder.positionFrom d.working) = some .folder :=
  h.find?_of_passes (folder.passes_positionFrom d.working)

theorem Opens.reaches (h : d.Opens folder) : d.Reaches folder := reaches_of_place h.place

/-- What is done below the folder leaves the way there. -/
theorem Opens.of_changesBelow (h : d.Opens folder)
    (hc : ChangesBelow (folder.positionFrom d.working) d e) : e.Opens folder := by
  have hplace : e.place folder = d.place folder :=
    place_congr hc.working fun q hq => hc.find?_eq q (h.direct q hq)
  constructor
  · rw [hplace, hc.working]
    exact h.place
  · rw [hc.working]
    exact h.direct

theorem Holds.ne_empty (h : Holds folder name) : name ≠ "" := ne_empty_of_isPlain h.plain

theorem Opens.place_child (h : d.Opens folder) (holds : Holds folder name) :
    d.place (folder.child name) = .ok (d.placeIn (folder.positionFrom d.working) name) :=
  Disk.place_child h.place holds

theorem Opens.isThere_child (h : d.Opens folder) (holds : Holds folder name) :
    d.isThere (folder.child name) = (d.find? (folder.positionFrom d.working ++ [name])).isSome := by
  rw [isThere, h.place_child holds, placeIn]
  cases d.find? (folder.positionFrom d.working ++ [name]) with
  | none => rfl
  | some v => cases v <;> rfl

theorem Opens.readText_child (h : d.Opens folder) (holds : Holds folder name)
    (file : d.find? (folder.positionFrom d.working ++ [name]) = some (.file text.toUTF8)) :
    d.readText (folder.child name) = .ok text := by
  rw [readText, read, h.place_child holds, placeIn, file]
  dsimp only
  rw [fromUTF8?_eq_some_iff.2 rfl]

theorem Opens.exists_write (h : d.Opens folder) (holds : Holds folder name)
    (free : d.find? (folder.positionFrom d.working ++ [name]) ≠ some .folder) (content : ByteArray) :
    ∃ e, d.write (folder.child name) content = .ok e := by
  rw [write, h.place_child holds, placeIn]
  cases hd : d.find? (folder.positionFrom d.working ++ [name]) with
  | none => exact ⟨_, rfl⟩
  | some v =>
      cases v with
      | folder => exact absurd hd free
      | file => exact ⟨_, rfl⟩

/-- The text of a file is read where its path leads to it. -/
theorem readText_of_find? {path : Path} (leads : d.position? path = some p)
    (file : d.find? p = some (.file text.toUTF8)) : d.readText path = .ok text := by
  rw [position?] at leads
  split at leads
  · next position hplace =>
      cases leads
      have hfound : d.find? p = some .folder := (place_eq_ok hplace).2.1
      rw [file] at hfound
      cases hfound
  · next above name content hplace =>
      cases leads
      have hfound : d.find? (above ++ [name]) = some (.file content) := (place_eq_ok hplace).2.1
      rw [file] at hfound
      cases hfound
      rw [readText, read, hplace]
      dsimp only
      rw [fromUTF8?_eq_some_iff.2 rfl]
  · cases leads

/-- A text that is read is found as a file at the position of its path. -/
theorem find?_of_readText {path : Path} (h : d.readText path = .ok text) :
    d.find? (path.positionFrom d.working) = some (.file text.toUTF8) := by
  rw [readText] at h
  split at h
  · cases h
  · next content hread =>
      split at h
      · next s hs =>
          cases h
          rw [find?_of_read hread, fromUTF8?_eq_some_iff.1 hs]
      · cases h

theorem exists_place_of_make {path : Path} (h : d.make path = .ok d') : ∃ x, d.place path = .ok x := by
  rw [make] at h
  split at h
  · next hx => exact ⟨_, hx⟩
  · cases h
  · cases h

theorem exists_place_of_write {path : Path} (h : d.write path content = .ok d') :
    ∃ x, d.place path = .ok x := by
  rw [write] at h
  split at h
  · next hx => exact ⟨_, hx⟩
  · next hx => exact ⟨_, hx⟩
  · cases h
  · cases h
  · cases h

theorem exists_place_of_rename {source target : Path} (h : d.rename source target = .ok d') :
    ∃ x, d.place target = .ok x := by
  rw [rename] at h
  split at h
  · split at h
    · cases h
    · split at h
      · next hx => exact ⟨_, hx⟩
      · next hx => exact ⟨_, hx⟩
      · cases h
      · cases h
      · cases h
  · cases h
  · cases h
  · cases h

/-- Something is moved to a name only, not to a folder by what stands for it. -/
theorem endsInName_child (ne : name ≠ "") (whole : '/' ∉ name.toList) (folder : Path) :
    endsInName (folder.child name) = true ↔ IsPlain name := by
  obtain ⟨first, -, hchild⟩ := Path.exists_segments_child folder whole
  have hne : name.isEmpty = false := by
    cases he : name.isEmpty with
    | false => rfl
    | true => exact absurd (String.isEmpty_iff.1 he) ne
  rw [endsInName, hchild, List.reverse_append, List.reverse_singleton, List.singleton_append,
    List.dropWhile_cons_of_neg (by rw [hne]; exact Bool.false_ne_true), List.head?_cons]
  dsimp only
  rw [Bool.and_eq_true, decide_eq_true_eq, decide_eq_true_eq]
  constructor
  · rintro ⟨hdot, hup⟩
    exact ⟨⟨by simp [Path.isIdle, ne, hdot], whole⟩, hup⟩
  · intro plain
    have hmeant := plain.meant
    rw [Path.isIdle, Bool.or_eq_false_iff, decide_eq_false_iff_not, decide_eq_false_iff_not] at hmeant
    exact ⟨hmeant.2, plain.down⟩

theorem endsInName_of_isPlain (plain : IsPlain name) (folder : Path) :
    endsInName (folder.child name) = true :=
  (endsInName_child (ne_empty_of_isPlain plain) plain.whole folder).2 plain

theorem Opens.exists_rename {other : String} {content : ByteArray} (h : d.Opens folder)
    (holds : Holds folder name) (holds' : Holds folder other)
    (file : d.find? (folder.positionFrom d.working ++ [name]) = some (.file content))
    (free : d.find? (folder.positionFrom d.working ++ [other]) ≠ some .folder) :
    ∃ e, d.rename (folder.child name) (folder.child other) = .ok e := by
  have hends : endsInName (folder.child other) = true := endsInName_of_isPlain holds'.plain folder
  rw [rename, h.place_child holds, placeIn, file]
  dsimp only
  rw [hends, h.place_child holds', placeIn]
  cases hd : d.find? (folder.positionFrom d.working ++ [other]) with
  | none => exact ⟨_, rfl⟩
  | some v =>
      cases v with
      | folder => exact absurd hd free
      | file => exact ⟨_, rfl⟩

/-- The second disk is the first one with a text in the file of a name in the folder at a position, and
with nothing under the name of its draft. -/
structure Refiles (p : List String) (name text : String) (d d' : Disk) : Prop where
  working : d'.working = d.working
  file : d'.find? (p ++ [name]) = some (.file text.toUTF8)
  draft : d'.find? (p ++ [name ++ Job.draftEnding]) = none
  others : ∀ q, ¬ p ++ [name] <+: q → ¬ p ++ [name ++ Job.draftEnding] <+: q →
    d'.find? q = d.find? q

theorem Refiles.changesBelow (h : Refiles p name text d d') : ChangesBelow p d d' := by
  refine ⟨h.working, fun q hq => h.others q ?_ ?_⟩
  · exact fun hpre => hq ⟨(List.prefix_append p _).trans hpre, by
      rintro rfl
      have := hpre.length_le
      rw [List.length_append] at this
      exact Nat.not_succ_le_self _ this⟩
  · exact fun hpre => hq ⟨(List.prefix_append p _).trans hpre, by
      rintro rfl
      have := hpre.length_le
      rw [List.length_append] at this
      exact Nat.not_succ_le_self _ this⟩

theorem concat_prefix_iff {p : List String} : p ++ [name] <+: p ++ [other] ↔ name = other := by
  rw [List.prefix_append_right_inj]
  simp

/-- What is found under another name stays. -/
theorem Refiles.find?_of_ne (h : Refiles p name text d d') (hname : other ≠ name)
    (hdraft : other ≠ name ++ Job.draftEnding) :
    d'.find? (p ++ [other]) = d.find? (p ++ [other]) :=
  h.others _ (fun hp => hname (concat_prefix_iff.1 hp).symm)
    fun hp => hdraft (concat_prefix_iff.1 hp).symm

/-- A disk is one on which a text was put into a file, if the file holds it and there is no draft. -/
theorem refiles_self (file : d.find? (p ++ [name]) = some (.file text.toUTF8))
    (draft : d.find? (p ++ [name ++ Job.draftEnding]) = none) : Refiles p name text d d :=
  ⟨rfl, file, draft, fun _ _ _ => rfl⟩

/-- Of the texts that are put into a file the last one counts. -/
theorem Refiles.trans {before : String} (h : Refiles p name before d e)
    (h' : Refiles p name text e d') : Refiles p name text d d' :=
  ⟨h'.working.trans h.working, h'.file, h'.draft,
    fun q hname hdraft => (h'.others q hname hdraft).trans (h.others q hname hdraft)⟩

/-- Putting a text into a file leads to one disk, whatever was done on the way. -/
theorem Refiles.find?_eq (h : Refiles p name text d d') (h' : Refiles p name text d e)
    (q : List String) : d'.find? q = e.find? q := by
  have below : ∀ r, p ++ [r] <+: q → d'.find? (p ++ [r]) = e.find? (p ++ [r]) →
      d'.find? (p ++ [r]) ≠ some .folder → d'.find? q = e.find? q := by
    intro r hr heq hne
    by_cases hq : p ++ [r] = q
    · rw [← hq, heq]
    · rw [find?_eq_none_of_below hr hq hne, find?_eq_none_of_below hr hq (heq ▸ hne)]
  by_cases hname : p ++ [name] <+: q
  · exact below name hname (by rw [h.file, h'.file]) (by rw [h.file]; nofun)
  · by_cases hdraft : p ++ [name ++ Job.draftEnding] <+: q
    · exact below _ hdraft (by rw [h.draft, h'.draft]) (by rw [h.draft]; nofun)
    · rw [h.others q hname hdraft, h'.others q hname hdraft]

/-- The folder is reached by its path without what means nothing at its end, too. -/
theorem Opens.find?_makeAll_trimmed (h : d.Opens folder) (q : List String) :
    (d.makeAll folder.trimmed).1.find? q = d.find? q := by
  rcases (makes_makeAll d folder.trimmed).find?_or q with hq | ⟨hnone, -, hq⟩
  · exact hq
  · rw [h.find?_of_passes (Path.passes_of_passes_parent hq)] at hnone
    cases hnone

theorem working_makeAll (d : Disk) (path : Path) : (d.makeAll path).1.working = d.working :=
  (makes_makeAll d path).working

/-! ### Paths that lead down -/

/-- All that a path passes where nothing is found is on the way down to where it leads. -/
def LeadsDown (d : Disk) (path : Path) : Prop :=
  ∀ q, path.Passes d.working q → d.find? q = none → q <+: path.positionFrom d.working

theorem leadsDown_of_down {path : Path} (down : ".." ∉ path.segments) (d : Disk) :
    d.LeadsDown path :=
  fun _ hq _ => Path.prefix_of_passes down hq

theorem leadsDown_of_isFolder (h : d.isFolder folder = true) : d.LeadsDown folder := by
  intro q hq hnone
  rw [find?_of_passes (place_of_isFolder h) hq] at hnone
  cases hnone

/-- Where a folder had to be made on the way down, nothing was found at the end of the way or below it,
and nothing is found below it afterwards. -/
theorem LeadsDown.find?_below_of_makes (leads : d.LeadsDown folder)
    (hmakes : Makes (folder.Passes d.working) d e) {q : List String}
    (hq : folder.Passes d.working q) (hdiffer : e.find? q ≠ d.find? q) :
    (∀ r, folder.positionFrom d.working <+: r → d.find? r = none) ∧
      ∀ name, e.find? (folder.positionFrom d.working ++ [name]) = none := by
  obtain ⟨hnone, -, -⟩ := (hmakes.find?_or q).resolve_left hdiffer
  have hbelow : ∀ r, folder.positionFrom d.working <+: r → d.find? r = none := by
    intro r hr
    have hqr : q <+: r := (leads q hq hnone).trans hr
    by_cases heq : q = r
    · exact heq ▸ hnone
    · exact find?_eq_none_of_below hqr heq (by rw [hnone]; nofun)
  refine ⟨hbelow, fun name => ?_⟩
  have hin := hbelow _ (List.prefix_append (folder.positionFrom d.working) [name])
  rcases hmakes.find?_or (folder.positionFrom d.working ++ [name]) with heq | ⟨-, -, hpass⟩
  · rw [heq, hin]
  · have hlen := (leads _ hpass hin).length_le
    rw [List.length_append] at hlen
    exact absurd hlen (Nat.not_succ_le_self _)

end Disk

namespace Job

open Disk

variable {d d' : Disk} {folder : Path} {name text : String}

theorem draft_ne (name : String) : name ++ draftEnding ≠ name := by
  intro e
  have hlen := congrArg (fun s : String => s.toList.length) e
  rw [String.toList_append, List.length_append] at hlen
  exact absurd (Nat.add_left_cancel (hlen.trans (Nat.add_zero _).symm)) (by decide)

/-- A text that is written as the draft and moved from there is in the file. -/
theorem refiles_of_draft {drafted : Disk} (plain : IsPlain name)
    (hwrite : d.write (folder.trimmed.child (name ++ draftEnding)) text.toUTF8 = .ok drafted)
    (hrename : drafted.rename (folder.trimmed.child (name ++ draftEnding)) (folder.child name) =
      .ok d') : Refiles (folder.positionFrom d.working) name text d d' := by
  have hdraft : ∀ start, (folder.trimmed.child (name ++ draftEnding)).positionFrom start =
      folder.positionFrom start ++ [name ++ draftEnding] := Path.positionFrom_draft folder plain
  have hdrafted := write_eq_ok hwrite
  obtain ⟨content, gone, hcontent, -, hgone, hmoved⟩ := rename_eq_ok hrename
  rw [hdraft] at hdrafted hcontent hgone
  rw [Path.positionFrom_child folder plain] at hmoved
  rw [hdrafted.working] at hcontent hgone hmoved
  have htext : content = text.toUTF8 := by
    rw [hdrafted.find?_self] at hcontent
    cases hcontent
    rfl
  have hapart : ¬ folder.positionFrom d.working ++ [name] <+:
      folder.positionFrom d.working ++ [name ++ draftEnding] :=
    fun hp => draft_ne name (concat_prefix_iff.1 hp).symm
  refine ⟨?_, ?_, ?_, ?_⟩
  · rw [hmoved.working, hgone.working, hdrafted.working]
  · rw [hmoved.find?_self, htext]
    rfl
  · rw [hmoved.find?_of_not_prefix hapart, hgone.find?_self]
    rfl
  · intro q hname hq
    rw [hmoved.find?_of_not_prefix hname, hgone.find?_of_not_prefix hq,
      hdrafted.find?_of_not_prefix hq]

/-- The text of a file is replaced under a plain name only, for nothing is moved to another. -/
theorem isPlain_of_replaceText (ne : name ≠ "") (whole : '/' ∉ name.toList)
    (h : (replaceText (folder.child name) text).run d = (.ok (), d')) : IsPlain name := by
  rw [replaceText] at h
  obtain ⟨_, _, -, h⟩ := run_bind_eq_ok_iff.1 h
  obtain ⟨_, _, -, h⟩ := run_bind_eq_ok_iff.1 h
  obtain ⟨_, _, -, h⟩ := run_bind_eq_ok_iff.1 h
  obtain ⟨_, _, -, h⟩ := run_bind_eq_ok_iff.1 h
  obtain ⟨_, _, -, hends, -⟩ := rename_eq_ok (run_change_eq_ok_iff.1 h)
  exact (endsInName_child ne whole folder).1 hends

/-- What replacing the text of a file in a folder has done when it succeeds. -/
theorem replaceText_eq_ok (h : d.Opens folder) (ne : name ≠ "") (whole : '/' ∉ name.toList)
    (hrun : (replaceText (folder.child name) text).run d = (.ok (), d')) :
    IsPlain name ∧ Holds folder name ∧ Holds folder.trimmed (name ++ draftEnding) ∧
      Refiles (folder.positionFrom d.working) name text d d' := by
  have plain := isPlain_of_replaceText ne whole hrun
  rw [replaceText_child folder plain] at hrun
  obtain ⟨_, made, hmake, hrun⟩ := run_bind_eq_ok_iff.1 hrun
  obtain ⟨_, drafted, hwrite, hrename⟩ := run_bind_eq_ok_iff.1 hrun
  have hmake : d.makeAll folder.trimmed = (made, .ok ()) := run_changeInPart_eq_ok_iff.1 hmake
  have hwrite : made.write (folder.trimmed.child (name ++ draftEnding)) text.toUTF8 = .ok drafted :=
    run_change_eq_ok_iff.1 hwrite
  have hrename := run_change_eq_ok_iff.1 hrename
  obtain ⟨x, hplaceDraft⟩ := exists_place_of_write hwrite
  obtain ⟨y, hplace⟩ := exists_place_of_rename hrename
  refine ⟨plain, holds_of_place plain hplace,
    holds_of_place (Path.isPlain_draft plain) hplaceDraft, ?_⟩
  -- the folder was there, so making it has changed nothing
  have hfind := h.find?_makeAll_trimmed
  have hworking := working_makeAll d folder.trimmed
  rw [hmake] at hfind hworking
  have hrefiles := refiles_of_draft plain hwrite hrename
  rw [hworking] at hrefiles
  exact ⟨hrefiles.working.trans hworking, hrefiles.file, hrefiles.draft,
    fun q hname hdraft => (hrefiles.others q hname hdraft).trans (hfind q)⟩

/-- Replacing the text of a file in a folder succeeds if both names can be used there. -/
theorem exists_replaceText (h : d.Opens folder) (bare : folder.trimmed = folder)
    (holds : Holds folder name) (draft : Holds folder (name ++ draftEnding))
    (free : d.find? (folder.positionFrom d.working ++ [name]) ≠ some .folder)
    (clear : d.find? (folder.positionFrom d.working ++ [name ++ draftEnding]) ≠ some .folder)
    (text : String) : ∃ d', (replaceText (folder.child name) text).run d = (.ok (), d') := by
  have hfolder : d.isFolder folder = true := by rw [isFolder, h.place]
  obtain ⟨drafted, hwrite⟩ := h.exists_write draft clear text.toUTF8
  have hdrafted := write_eq_ok hwrite
  rw [Path.positionFrom_child folder draft.plain] at hdrafted
  have hopens : drafted.Opens folder := h.of_changesBelow
    (hdrafted.changesBelow (List.prefix_append _ _) (append_ne_self (List.cons_ne_nil _ _) _))
  have hsource : drafted.find? (folder.positionFrom drafted.working ++ [name ++ draftEnding]) =
      some (.file text.toUTF8) := by
    rw [hdrafted.working, hdrafted.find?_self]
    rfl
  have htarget : drafted.find? (folder.positionFrom drafted.working ++ [name]) ≠ some .folder := by
    rw [hdrafted.working, hdrafted.find?_of_not_prefix fun hp => draft_ne name (concat_prefix_iff.1 hp)]
    exact free
  obtain ⟨d', hrename⟩ := hopens.exists_rename draft holds hsource htarget
  refine ⟨d', ?_⟩
  have habove : Path.ofAnchored folder.anchor (Path.trimEnd folder.body) = folder := bare
  rw [replaceText_child folder holds.plain, habove, run_bind, run_changeInPart,
    makeAll_of_isFolder hfolder]
  dsimp only [ofDisk, during]
  rw [run_bind, run_change, hwrite]
  dsimp only
  rw [run_change, hrename]

end Job

end GuidedLab
