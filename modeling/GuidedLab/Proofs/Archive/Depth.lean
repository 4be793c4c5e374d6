import GuidedLab.Archive.Text
import GuidedLab.Proofs.Source.Written

/-!
# How deep a snapshot is

A component is saved into archives that nest as deep as the component itself does, and a tree adds one.
What the loader reads nests one less deep than a text of an archive may, so every snapshot of a loaded
script can be read back (`Tree.depth_savedInto_le`).
-/

namespace GuidedLab

namespace Archive

variable {n : Nat} {a : Archive} {key : String}

theorem depthOfEntries_insertEntry_le (key : String) (v : Value) (entries : Entries) :
    depthOfEntries (insertEntry key v entries) ≤ max v.depth (depthOfEntries entries) := by
  induction entries with
  | nil => exact Nat.le_refl _
  | cons e rest ih =>
      obtain ⟨k, w⟩ := e
      rw [insertEntry]
      split
      · exact Nat.le_refl _
      · split
        · simp only [depthOfEntries]
          omega
        · simp only [depthOfEntries]
          omega

theorem depth_put_le {item : Item} (h : a.depth ≤ n) (hitem : item.1.depth < n) :
    (a.put key item).depth ≤ n := by
  have hinsert := depthOfEntries_insertEntry_le key item.1 a.entries
  rw [depth, Value.depth] at h
  rw [depth, Value.depth, put]
  dsimp only
  omega

/-- A value that is no archive makes an archive no deeper. -/
theorem depth_put_plain_le {item : Item} (h : a.depth ≤ n) (hitem : item.1.depth = 0) :
    (a.put key item).depth ≤ n := by
  apply depth_put_le h
  rw [depth, Value.depth] at h
  omega

end Archive

theorem Element.depth_savedInto_le {n : Nat} {a : Archive} (h : a.depth ≤ n) (e : Element) :
    (e.savedInto a).depth ≤ n := by
  cases e with
  | textQuestion q =>
      rw [savedInto]
      dsimp only
      apply Archive.depth_put_plain_le _ rfl
      split
      · exact h
      · split
        · exact Archive.depth_put_plain_le (Archive.depth_put_plain_le h rfl) rfl
        · exact Archive.depth_put_plain_le h rfl
  | experiment x =>
      rw [savedInto]
      split
      · exact Archive.depth_put_plain_le h rfl
      · exact h
  | _ => exact h

namespace Component

theorem depth_itemsSavedInto_le {n : Nat} {items : List Component}
    (each : ∀ c ∈ items, (c.savedInto .empty).depth < n) {a : Archive} (h : a.depth ≤ n) (k : Nat) :
    (itemsSavedInto a k items).depth ≤ n := by
  induction items generalizing a k with
  | nil => exact h
  | cons c rest ih =>
      rw [itemsSavedInto]
      apply ih fun d hd => each d (List.mem_cons_of_mem c hd)
      exact Archive.depth_put_le h (each c List.mem_cons_self)

/-- What a component is saved as nests no deeper than the component. -/
theorem depth_savedInto_le {n : Nat} {c : Component} (h : c.NestsWithin n) :
    (c.savedInto .empty).depth ≤ n := by
  have hempty : ∀ m : Nat, 0 < m → Archive.empty.depth ≤ m := fun _ hm => hm
  induction c using Component.induction generalizing n with
  | leaf name state element =>
      have hn : 0 < n := h [] _ (item?_nil _)
      rw [savedInto]
      exact element.depth_savedInto_le (Archive.depth_put_plain_le (hempty n hn) rfl)
  | sheet name state orientation items ih =>
      cases n with
      | zero => exact absurd (h [] _ (item?_nil _)) (Nat.lt_irrefl 0)
      | succ n =>
          rw [savedInto]
          apply depth_itemsSavedInto_le
          · intro c hc
            exact Nat.lt_succ_of_le (ih c hc (nestsWithin_sheet.1 h c hc))
          · exact Archive.depth_put_plain_le (hempty (n + 1) (Nat.succ_pos n)) rfl

end Component

/-- A snapshot of a tree is one deeper than its components. -/
theorem Tree.depth_savedInto_le {n : Nat} {t : Tree} {a saved : Archive} (h : t.IsWritten n)
    (ha : a.depth ≤ n + 1) (hsaved : t.savedInto a = .ok saved) : saved.depth ≤ n + 1 := by
  rw [savedInto] at hsaved
  split at hsaved
  · cases hsaved
  · cases hsaved
    apply Component.depth_itemsSavedInto_le
    · intro c hc
      exact Nat.lt_succ_of_le (Component.depth_savedInto_le (h c hc).nests)
    · exact Archive.depth_put_plain_le ha rfl

end GuidedLab
