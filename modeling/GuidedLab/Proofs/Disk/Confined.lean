import GuidedLab.Proofs.Disk.Change
import GuidedLab.Proofs.Disk.Job

/-!
# Work that stays in a folder

A path *reaches* its folder when every position that it passes is a folder, apart from positions below
where it leads to. That is what a path is worth to whom works in its folder: whatever is done below the
folder, it stays so (`Reaches.of_changesBelow`), although the path itself may end to lead there, when it
takes a way through the folder. So work that changes a disk below the folder only, as long as the folder
is reached, can be followed by more of the same (`staysIn_trans`).

Replacing the text of a file in the folder is such work, whether it succeeds or fails on the way.
-/

namespace GuidedLab

open GuidedLab.Path (IsPlain IsSegment)

namespace Path

variable {start : List String} {name : String} {p : Path}

theorem walk_of_prefix_bare {a : Anchor} {b : List String} (h : b <+: (ofAnchored a []).body) :
    walk ((ofAnchored a []).anchor.base start) b = a.base start := by
  have hb : b = [] ∨ b = [""] := by
    cases a with
    | dot => exact Or.inl (List.prefix_nil.1 h)
    | here | root =>
        rcases List.prefix_cons_iff.1 (show b <+: [""] from h) with rfl | ⟨t, rfl, ht⟩
        · exact Or.inl rfl
        · exact Or.inr (by rw [List.prefix_nil.1 ht])
  rcases hb with rfl | rfl <;> cases a <;> rfl

/-- The parent of a path that ends in a name passes nothing that the path without the name does not
pass, though its text may be another. -/
theorem passes_of_passes_parent {p : Path} {position : List String}
    (h : (ofAnchored p.anchor (trimEnd p.body)).Passes start position) : p.Passes start position := by
  obtain ⟨b, hb, rfl⟩ := passes_iff.1 h
  apply passes_iff.2
  by_cases ht : trimEnd p.body = []
  · rw [ht] at hb ⊢
    exact ⟨[], List.nil_prefix, walk_of_prefix_bare hb⟩
  · have hanchored := anchored_ofAnchored p.isBody_trimEnd ht
    rw [Path.body, hanchored] at hb
    rw [anchor, hanchored]
    exact ⟨b, hb.trans (trimEnd_isPrefix p.body), rfl⟩

theorem positionFrom_parent (p : Path) (start : List String) :
    (ofAnchored p.anchor (trimEnd p.body)).positionFrom start = p.positionFrom start := by
  rw [positionFrom_ofAnchored p.isBody_trimEnd, walk_trimEnd, ← positionFrom_eq]

/-- The name of a draft is a plain name. -/
theorem isPlain_draft (h : IsPlain name) : IsPlain (name ++ Job.draftEnding) := by
  apply isPlain_of_length
  · have hending : Job.draftEnding.toList.length = 4 := rfl
    rw [String.toList_append, List.length_append]
    omega
  · rw [String.toList_append, List.mem_append]
    rintro (hmem | hmem)
    · exact h.whole hmem
    · exact absurd hmem (by decide)

/-- The draft of a file in a folder is in the folder. -/
theorem positionFrom_draft (p : Path) (h : IsPlain name) (start : List String) :
    ((ofAnchored p.anchor (trimEnd p.body)).child (name ++ Job.draftEnding)).positionFrom start =
      p.positionFrom start ++ [name ++ Job.draftEnding] := by
  rw [positionFrom_child _ (isPlain_draft h), positionFrom_parent]

end Path

namespace Disk

variable {d d' e : Disk} {p q : List String} {folder path : Path} {name : String}

/-- All that a path passes is there, apart from what is below the position it leads to. -/
def Reaches (d : Disk) (folder : Path) : Prop :=
  ∀ q, folder.Passes d.working q →
    ¬ (folder.positionFrom d.working <+: q ∧ q ≠ folder.positionFrom d.working) →
    d.find? q = some .folder

/-- The second disk is the first one after work in the folder at a path, if the path reaches it. -/
def StaysIn (folder : Path) (d d' : Disk) : Prop :=
  d.Reaches folder → ChangesBelow (folder.positionFrom d.working) d d'

theorem Reaches.find? (h : d.Reaches folder) :
    d.find? (folder.positionFrom d.working) = some .folder :=
  h _ (folder.passes_positionFrom d.working) fun hq => hq.2 rfl

theorem reaches_of_place (h : d.place folder = .ok (.folder p)) : d.Reaches folder :=
  fun _ hq _ => find?_of_passes h hq

theorem Reaches.of_changesBelow (h : d.Reaches folder)
    (hc : ChangesBelow (folder.positionFrom d.working) d d') : d'.Reaches folder := by
  intro q hq hout
  rw [hc.working] at hq hout
  rw [hc.find?_eq q hout]
  exact h q hq hout

theorem staysIn_refl (folder : Path) (d : Disk) : StaysIn folder d d :=
  fun _ => .refl _ d

theorem staysIn_trans (folder : Path) (d e d' : Disk) (h : StaysIn folder d e)
    (h' : StaysIn folder e d') : StaysIn folder d d' := by
  intro hreaches
  have hc := h hreaches
  have hc' := h' (hreaches.of_changesBelow hc)
  rw [hc.working] at hc'
  exact hc.trans hc'

theorem append_ne_self {rest : List String} (h : rest ≠ []) (p : List String) : p ++ rest ≠ p := by
  intro e
  exact h (List.append_right_eq_self.1 e)

/-- Folders that are made on the way are made below a folder that is reached. -/
theorem Makes.staysIn {kind : List String → Prop} (h : Makes kind d d')
    (hk : ∀ q, kind q → folder.Passes d.working q ∨
      folder.positionFrom d.working <+: q ∧ q ≠ folder.positionFrom d.working) :
    StaysIn folder d d' := by
  intro hreaches
  apply h.changesBelow
  intro q hq hnone
  rcases hk q hq with hpass | hbelow
  · -- all that is passed outside is there already
    cases Classical.em (folder.positionFrom d.working <+: q ∧ q ≠ folder.positionFrom d.working) with
    | inl hbelow => exact hbelow
    | inr hout =>
        rw [hreaches q hpass hout] at hnone
        cases hnone
  · exact hbelow

theorem Replaces.staysIn {v : Option Folder.Entry} {rest : List String}
    (h : Replaces (folder.positionFrom d.working ++ rest) v d d') (hne : rest ≠ []) :
    StaysIn folder d d' :=
  fun _ => h.changesBelow (List.prefix_append _ rest) (append_ne_self hne _)

end Disk

namespace Job

open Disk

variable {d d' : Disk} {folder : Path} {name text : String}

/-- The path of a file that is named in a folder, on the way of a draft. -/
theorem replaceText_child (folder : Path) (plain : IsPlain name) (text : String) :
    replaceText (folder.child name) text = (do
      let above := Path.ofAnchored folder.anchor (Path.trimEnd folder.body)
      changeInPart s!"create directory {above.text}" fun d => d.makeAll above
      let draft := above.child (name ++ draftEnding)
      change s!"write temp file {draft.text}" fun d => d.write draft text.toUTF8
      change s!"replace {(folder.child name).text}" fun d => d.rename draft (folder.child name)) := by
  rw [replaceText, Path.parent?_child folder plain.toIsSegment, Path.fileName?_child folder plain]
  simp only [require_some_bind]

theorem replaceText_up (folder : Path) (text : String) :
    replaceText (folder.child "..") text = (do
      let above := Path.ofAnchored folder.anchor (Path.trimEnd folder.body)
      changeInPart s!"create directory {above.text}" fun d => d.makeAll above
      let target := folder.child ".."
      refuse s!"path missing file name {target.text}") := by
  rw [replaceText, Path.parent?_child folder ⟨rfl, by decide⟩, Path.fileName?_up folder]
  rfl

/-- Replacing the text of a file in a folder stays in the folder, whether it succeeds or not. -/
theorem keeps_replaceText (folder : Path) (segment : IsSegment name) (text : String) :
    Keeps (StaysIn folder) (replaceText (folder.child name) text) := by
  have htrans := staysIn_trans folder
  let above := Path.ofAnchored folder.anchor (Path.trimEnd folder.body)
  have hmake : ∀ context, Keeps (StaysIn folder) (changeInPart context fun d => d.makeAll above) :=
    fun context => Keeps.changeInPart fun d =>
      (makes_makeAll d above).staysIn fun q hq => Or.inl (Path.passes_of_passes_parent hq)
  by_cases hdown : name = ".."
  · -- such a path has no file name, so nothing is written
    subst hdown
    rw [replaceText_up folder]
    exact Keeps.bind htrans (hmake _) fun _ => keeps_ofAnswer (staysIn_refl folder) _
  · have plain : IsPlain name := ⟨segment, hdown⟩
    have hposition : ∀ d : Disk, (above.child (name ++ draftEnding)).positionFrom d.working =
        folder.positionFrom d.working ++ [name ++ draftEnding] :=
      fun d => Path.positionFrom_draft folder plain d.working
    rw [replaceText_child folder plain]
    refine Keeps.bind htrans (hmake _) fun _ => Keeps.bind htrans ?_ fun _ => ?_
    · refine Keeps.change (staysIn_refl folder) fun d d' h => ?_
      have hr := write_eq_ok h
      rw [hposition] at hr
      exact hr.staysIn (List.cons_ne_nil _ _)
    · refine Keeps.change (staysIn_refl folder) fun d d' h => ?_
      obtain ⟨content, mid, -, -, hgone, hput⟩ := rename_eq_ok h
      rw [hposition] at hgone
      rw [← hgone.working, Path.positionFrom_child folder plain] at hput
      exact htrans d mid d' (hgone.staysIn (List.cons_ne_nil _ _))
        (hput.staysIn (List.cons_ne_nil _ _))

end Job

end GuidedLab
