import GuidedLab.Proofs.Component.Saved
import GuidedLab.Proofs.Tree.Lasting

/-!
# Snapshots are taken back

A tree of the same outline as the one that was saved takes the snapshot back: every part takes the
progress of the part at its position, with the text of a path for the path, and everything else is as it
was (`restored?_savedInto`). The numbers of the pages play no part in this, since pages are saved under
their positions in pre-order. What else was in the archive is still there and is not looked at.

Taking back any archive leaves what a snapshot does not hold (`withoutProgress_restored?`).
-/

namespace GuidedLab.Tree

/-- The part at a position in pre-order and the positions that lead to an item. -/
def part? (t : Tree) (k : Nat) (p : List Nat) : Option Component :=
  t.components[k]?.bind fun c => c.item? p

/-- What is the same of the parts of trees of one shape at every position is the same at every address. -/
theorem at?_map_eq_of_parts {β : Type} {f g : Component → β} {t u : Tree}
    (shape : t.pages.shape = u.pages.shape)
    (same : ∀ k p, (t.part? k p).map f = (u.part? k p).map g) (a : Address) :
    (t.at? a).map f = (u.at? a).map g := by
  have hpre : t.preorder = u.preorder := preorder_eq_of_shape_eq shape
  by_cases hn : a.node ∈ t.preorder
  · obtain ⟨k, hk⟩ := List.getElem?_of_mem hn
    have hpart := same k a.items
    rwa [part?, part?, getElem?_components, getElem?_components, ← hpre, hk] at hpart
  · have hnone : ∀ v : Tree, v.preorder = t.preorder → v.at? a = none := by
      intro v hv
      rw [at?, component?]
      cases hf : v.pages.find? a.node with
      | none => rfl
      | some page => exact absurd (hv ▸ Branches.mem_nodes_of_find? hf) hn
    rw [hnone t rfl, hnone u hpre.symm]
    rfl

theorem repr_ne_fingerprintKey (n : Nat) : Nat.repr n ≠ fingerprintKey :=
  Text.repr_ne (c := 's') (by decide) (by decide) n

/-- The tree that a traversal in pre-order has restored. -/
theorem restored?_eq_ok {t : Tree} {a : Archive} (ne : t.isEmpty = false)
    (fits : a.text? fingerprintKey = some t.fingerprint) {pages : Branches Component}
    (h : t.pages.traverse (restoredAt a) 0 = .ok pages) :
    ∃ u, t.restored? a = .ok u ∧ u.pages = pages := by
  rw [restored?, if_neg (by rw [ne]; exact Bool.false_ne_true), if_neg (not_not_intro fits)]
  split
  · next h' =>
      rw [h] at h'
      cases h'
  · next h' =>
      rw [h] at h'
      cases h'
      exact ⟨_, rfl, rfl⟩

theorem traverse_of_restored? {t u : Tree} {a : Archive} (h : t.restored? a = .ok u) :
    t.pages.traverse (restoredAt a) 0 = .ok u.pages := by
  rw [restored?] at h
  split at h
  · cases h
  · split at h
    · cases h
    · split at h
      · cases h
      · next ht =>
          cases h
          exact ht

theorem shape_of_restored? {t u : Tree} {a : Archive} (h : t.restored? a = .ok u) :
    u.pages.shape = t.pages.shape :=
  Branches.shape_of_traverse (traverse_of_restored? h)

theorem length_components_of_restored? {t u : Tree} {a : Archive} (h : t.restored? a = .ok u) :
    u.components.length = t.components.length := by
  rw [length_components, length_components]
  exact Branches.size_eq_of_shape_eq (shape_of_restored? h)

theorem restoredFrom_of_restoredAt {a : Archive} {k : Nat} {c d : Component}
    (h : restoredAt a k c = .ok d) :
    ∃ b, a.nested? (Nat.repr k) = some b ∧ d = (c.restoredFrom b).1 := by
  rw [restoredAt] at h
  cases hb : a.nested? (Nat.repr k) with
  | none =>
      rw [hb] at h
      cases h
  | some b =>
      rw [hb] at h
      dsimp only at h
      rw [Component.restored?] at h
      split at h
      · next hr =>
          cases h
          exact ⟨b, rfl, by rw [hr]⟩
      · cases h

/-- Each component after an archive was taken back is what it was restored as. -/
theorem getElem?_components_of_restored? {t u : Tree} {a : Archive} (h : t.restored? a = .ok u)
    (k : Nat) : u.components[k]? = t.components[k]?.map fun c =>
      (c.restoredFrom ((a.nested? (Nat.repr k)).getD .empty)).1 := by
  cases hk : t.components[k]? with
  | none =>
      rw [List.getElem?_eq_none_iff] at hk
      exact List.getElem?_eq_none (length_components_of_restored? h ▸ hk)
  | some c =>
      obtain ⟨d, hd, hu⟩ := Branches.getElem?_values_of_traverse (traverse_of_restored? h) hk
      rw [Nat.zero_add] at hd
      obtain ⟨b, hb, rfl⟩ := restoredFrom_of_restoredAt hd
      rw [Option.map_some, hb, Option.getD_some]
      exact hu

/-- Taking back an archive leaves what a snapshot does not hold. -/
theorem withoutProgress_restored? {t u : Tree} {a : Archive} (h : t.restored? a = .ok u) :
    u.withoutProgress = t.withoutProgress := by
  apply map_eq_of_components (shape_of_restored? h)
  apply List.ext_getElem?
  intro k
  rw [List.getElem?_map, List.getElem?_map, getElem?_components_of_restored? h, Option.map_map]
  congr 1
  funext c
  exact Component.withoutProgress_restoredFrom _ c

/-- Taking back an archive records nothing but texts of paths below the run. -/
theorem records_restored? {P : RawPath → Prop} {t u : Tree} {a : Archive}
    (h : t.restored? a = .ok u) (hP : ∀ p : Path, p.isContained = true → P (.ofPath p))
    (ht : t.Records P) : u.Records P := by
  intro d hd
  obtain ⟨k, hk⟩ := List.getElem?_of_mem hd
  rw [getElem?_components_of_restored? h] at hk
  obtain ⟨c, hc, rfl⟩ := Option.map_eq_some_iff.1 hk
  exact Component.every_records_restoredFrom hP _ (ht c (List.mem_of_getElem? hc))

/-- Where all that is recorded is written as texts, nothing is lost of the paths in a snapshot. -/
theorem settled_of_records {t : Tree} (h : t.Records RawPath.IsWritten) (k : Nat) (p : List Nat) :
    ((t.part? k p).map fun c => c.progress.settled) = (t.part? k p).map Component.progress := by
  cases hpart : t.part? k p with
  | none => rfl
  | some c =>
      obtain ⟨page, hpage, hitem⟩ := Option.bind_eq_some_iff.1 hpart
      have hc : c.Records RawPath.IsWritten := h page (List.mem_of_getElem? hpage) p c hitem
      have hpath : c.progress.path?.map RawPath.settled = c.progress.path? := by
        cases hpath : c.progress.path? with
        | none => rfl
        | some path => rw [Option.map_some, (hc path hpath).settled]
      rw [Option.map_some, Option.map_some, Progress.settled, hpath]

/-- A snapshot of a tree has its fingerprint and each component under its position. What else was in the
archive is still there. -/
theorem exists_savedInto {t : Tree} (a : Archive) (ne : t.isEmpty = false) :
    ∃ saved, t.savedInto a = .ok saved ∧ saved.text? fingerprintKey = some t.fingerprint ∧
      (∀ k c, t.components[k]? = some c → saved.nested? (Nat.repr k) = some (c.savedInto .empty)) ∧
      ∀ key, key ≠ fingerprintKey → (∀ k < t.size, key ≠ Nat.repr k) →
        saved.get? key = a.get? key := by
  refine ⟨_, if_neg (by rw [ne]; exact Bool.false_ne_true), ?_, ?_, ?_⟩
  · rw [← Archive.text?_putText_self a fingerprintKey t.fingerprint]
    apply Archive.text?_eq_of_get?_eq
    exact Component.get?_itemsSavedInto_of_ne fun j _ => (repr_ne_fingerprintKey _).symm
  · intro k c hc
    rw [← Nat.zero_add k]
    exact Component.nested?_itemsSavedInto hc
  · intro key hkey hpositions
    have hitems : (Component.itemsSavedInto (a.putText fingerprintKey t.fingerprint) 0
        t.components).get? key = (a.putText fingerprintKey t.fingerprint).get? key := by
      apply Component.get?_itemsSavedInto_of_ne
      intro j hj
      rw [Nat.zero_add]
      exact hpositions j (length_components t ▸ hj)
    rw [hitems]
    exact Archive.get?_put_of_ne a hkey _

/-- Position by position, a component is restored from where one of its outline was saved. -/
theorem exists_restoredAt {t u : Tree} {saved : Archive} (contained : t.IsContained)
    (same : t.outline = u.outline)
    (nested : ∀ k c, t.components[k]? = some c →
      saved.nested? (Nat.repr k) = some (c.savedInto .empty)) {k : Nat} {d : Component}
    (hd : u.components[k]? = some d) :
    ∃ c r, t.components[k]? = some c ∧ restoredAt saved k d = .ok r ∧ Component.Resumes c d r := by
  have hmap : u.components.map Component.outline = t.components.map Component.outline := by
    rw [← map_fst_outline, ← map_fst_outline, same]
  obtain ⟨c, hc, hdc⟩ := Lists.exists_getElem?_of_map_eq hmap hd
  obtain ⟨r, hr, hresumes⟩ :=
    Component.restoredFrom_savedInto hdc (contained c (List.mem_of_getElem? hc))
  refine ⟨c, r, hc, ?_, hresumes⟩
  rw [restoredAt, nested k c hc]
  dsimp only
  rw [Component.restored?, hr]

/-- A snapshot of a tree is taken back by every tree of the same outline. -/
theorem restored?_savedInto {t u : Tree} (a : Archive) (ne : t.isEmpty = false)
    (contained : t.IsContained) (same : t.outline = u.outline) :
    ∃ saved restored, t.savedInto a = .ok saved ∧
      (∀ key, key ≠ fingerprintKey → (∀ k < t.size, key ≠ Nat.repr k) →
        saved.get? key = a.get? key) ∧
      u.restored? saved = .ok restored ∧ restored.withoutProgress = u.withoutProgress ∧
      ∀ k p, (restored.part? k p).map Component.progress =
        (t.part? k p).map fun c => c.progress.settled := by
  have hsize : t.size = u.size := by rw [← length_outline, ← length_outline, same]
  have hne : u.isEmpty = false := by
    rw [isEmpty_eq_false_iff, ← hsize]
    exact isEmpty_eq_false_iff.1 ne
  obtain ⟨saved, hsaved, hfits, hnested, hothers⟩ := exists_savedInto a ne
  rw [fingerprint_eq_of_outline_eq same] at hfits
  obtain ⟨pages, hpages⟩ : ∃ pages, u.pages.traverse (restoredAt saved) 0 = .ok pages := by
    apply Branches.exists_traverse
    intro k d hd
    obtain ⟨c, r, -, hr, -⟩ := exists_restoredAt contained same hnested hd
    exact ⟨r, by rw [Nat.zero_add, hr]⟩
  obtain ⟨restored, hrestored, rfl⟩ := restored?_eq_ok hne hfits hpages
  refine ⟨saved, restored, hsaved, hothers, hrestored, withoutProgress_restored? hrestored, ?_⟩
  intro k p
  rw [part?, part?]
  cases hd : u.components[k]? with
  | none =>
      have hle : u.components.length ≤ k := List.getElem?_eq_none_iff.1 hd
      have hlen := length_components_of_restored? hrestored
      have hlen' : t.components.length = u.components.length := by
        rw [length_components, length_components, hsize]
      rw [List.getElem?_eq_none (by omega), List.getElem?_eq_none (by omega)]
      rfl
  | some d =>
      obtain ⟨c, r, hc, hr, hresumes⟩ := exists_restoredAt contained same hnested hd
      obtain ⟨r', hr', hk⟩ := Branches.getElem?_values_of_traverse hpages hd
      rw [Nat.zero_add, hr] at hr'
      cases hr'
      rw [show restored.components[k]? = some r from hk, hc]
      exact hresumes.progress_eq p

end GuidedLab.Tree
