import GuidedLab.Tree.Fingerprint
import GuidedLab.Component.Saved

/-!
# Snapshots of a tree

A snapshot is the fingerprint of a tree and an archive of each component under its position in
pre-order. It is put into an archive that may hold more. A snapshot is taken back only by a tree of
the same fingerprint, and as a whole: with the first component that does not fit there is no tree to
go on with, and the old one is still there.
-/

namespace GuidedLab.Tree

/-- The key of the fingerprint in archives. -/
def fingerprintKey : String := "scriptId"

/-- The archive with a snapshot of the tree. -/
def savedInto (a : Archive) (t : Tree) : Except Fault Archive :=
  if t.isEmpty then .error .notLoaded
  else .ok (Component.itemsSavedInto (a.putText fingerprintKey t.fingerprint) 0 t.components)

/-- The component at a position restored from an archive of components. -/
def restoredAt (a : Archive) (position : Nat) (c : Component) : Except Fault Component :=
  match a.nested? (Nat.repr position) with
  | none => .error (.noSavedState position)
  | some b => c.restored? b

/-- The tree restored from a snapshot. -/
def restored? (a : Archive) (t : Tree) : Except Fault Tree :=
  if t.isEmpty then .error .notLoaded
  else if a.text? fingerprintKey ≠ some t.fingerprint then .error .incompatible
  else
    match h : t.pages.traverse (restoredAt a) 0 with
    | .error f => .error f
    | .ok pages =>
      have hs := Branches.shape_of_traverse h
      .ok ⟨pages, (Branches.sound_shape pages).1 (hs ▸ (Branches.sound_shape t.pages).2 t.sound),
        by rw [← Branches.links_shape, hs, Branches.links_shape]; exact t.rooted⟩

end GuidedLab.Tree
