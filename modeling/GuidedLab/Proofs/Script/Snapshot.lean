import GuidedLab.Proofs.Script.Run

/-!
# What a snapshot carries

A snapshot of a script at any moment of a run is taken back by every tree of the same outline. Each part
takes the state and the answer of the part at its position, and of a recorded path the text
(`snapshot_carries_progress`): a path that is written as a text comes back as it is, any other one with
replacements for the bytes that are no character (`not_snapshot_carries_path`).
-/

namespace GuidedLab.Script

/-- A snapshot of a tree that was reached in a run is taken back by every tree of its structure: the
states and the answers are the saved ones, each recorded path is the text of the saved one, which is the
saved path itself if that is written as a text, and all else stays as it was. -/
theorem snapshot_carries_progress {s : Script} (made : s.Made) (calls : List Call) (a : Archive)
    {t : Tree} (ne : (s.after calls).tree.isEmpty = false)
    (same : (s.after calls).tree.outline = t.outline) :
    ∃ saved restored, (s.after calls).tree.savedInto a = .ok saved ∧
      (∀ key, key ≠ Tree.fingerprintKey → (∀ k < (s.after calls).tree.size, key ≠ Nat.repr k) →
        saved.get? key = a.get? key) ∧
      t.restored? saved = .ok restored ∧ restored.withoutProgress = t.withoutProgress ∧
      (∀ k p, (restored.part? k p).map Component.progress =
        ((s.after calls).tree.part? k p).map fun c => c.progress.settled) ∧
      ∀ k p state answer? (path : Path),
        ((s.after calls).tree.part? k p).map Component.progress =
            some ⟨state, answer?, some (.ofPath path)⟩ →
          (restored.part? k p).map Component.progress = some ⟨state, answer?, some (.ofPath path)⟩ := by
  obtain ⟨saved, restored, hsaved, hkeys, hrestored, hlasting, hprogress⟩ :=
    Tree.restored?_savedInto a ne (made.isContained_after calls) same
  refine ⟨saved, restored, hsaved, hkeys, hrestored, hlasting, hprogress, ?_⟩
  intro k p state answer? path hpart
  obtain ⟨c, hc, hprogress'⟩ := Option.map_eq_some_iff.1 hpart
  rw [hprogress, hc, Option.map_some, hprogress', Progress.settled, Option.map_some,
    RawPath.settled_ofPath]

/-- The script of `sample` with other texts, laid out otherwise and with an optional question. -/
def sampleReworded : Script :=
  .new "Free fall" (.new (.ofItems "Drop" .horizontal
    [.ofCheckbox "ready" "Ready?", .ofTextQuestion "time" "How many seconds?" true]))

theorem snapshot_carries_answer :
    ∃ saved restored, (sample.after [.interact ⟨0, [1]⟩ (.answer "0.4 s")]).tree.savedInto
        (Archive.empty.putBool "7" true) = .ok saved ∧
      saved.get? "7" = some (.bool true) ∧
      sampleReworded.tree.restored? saved = .ok restored ∧
      (restored.part? 0 [1]).map Component.progress = some ⟨.plainlyDone, some "0.4 s", none⟩ ∧
      restored.withoutProgress = sampleReworded.tree.withoutProgress := by
  obtain ⟨saved, restored, hsaved, hkeys, hrestored, hlasting, hprogress, -⟩ :=
    snapshot_carries_progress made_sample [.interact ⟨0, [1]⟩ (.answer "0.4 s")]
      (Archive.empty.putBool "7" true) (t := sampleReworded.tree) rfl rfl
  refine ⟨saved, restored, hsaved, ?_, hrestored, ?_, hlasting⟩
  · rw [hkeys "7" (by decide) (by decide)]
    rfl
  · rw [hprogress 0 [1]]
    rfl

/-- A script with one page of an experiment. -/
def swing : Script := .new "Swing" (.new (.ofItems "Lab" .vertical [.ofExperiment "swing" .camera ""]))

theorem made_swing : swing.Made := by
  apply Made.constructed
  intro c hc
  rw [List.mem_singleton.1 hc]
  apply Component.Built.sheet
  intro d hd
  rw [List.mem_singleton.1 hd]
  exact .experiment _ _ _

/-- The letter e and a byte that no character has. -/
def unwritten : RawPath := ⟨[0x65, 0xFF]⟩

/-- Not every recorded path comes back as it was. -/
theorem not_snapshot_carries_path : ¬ ∀ (s : Script) (calls : List Call) (a : Archive) (t : Tree),
    s.Made → (s.after calls).tree.isEmpty = false → (s.after calls).tree.outline = t.outline →
      ∃ saved restored, (s.after calls).tree.savedInto a = .ok saved ∧
        t.restored? saved = .ok restored ∧
        ∀ k p, (restored.part? k p).map Component.progress =
          ((s.after calls).tree.part? k p).map Component.progress := by
  intro h
  let recorded := swing.after [.interact ⟨0, [0]⟩ (.record unwritten)]
  have hpart : (recorded.tree.part? 0 [0]).map Component.progress =
      some ⟨.plainlyDone, none, some unwritten⟩ := by
    decide +kernel
  obtain ⟨saved, restored, hsaved, hrestored, hsame⟩ :=
    h swing [.interact ⟨0, [0]⟩ (.record unwritten)] .empty swing.tree made_swing rfl rfl
  obtain ⟨saved', restored', hsaved', -, hrestored', -, hsettled⟩ :=
    Tree.restored?_savedInto .empty rfl (made_swing.isContained_after _) (t := recorded.tree)
      (u := swing.tree) rfl
  obtain rfl : saved' = saved := Except.ok.inj (hsaved'.symm.trans hsaved)
  obtain rfl : restored' = restored := Except.ok.inj (hrestored'.symm.trans hrestored)
  obtain ⟨c, hc, hprogress⟩ := Option.map_eq_some_iff.1 hpart
  have hback := (hsettled 0 [0]).symm.trans (hsame 0 [0])
  rw [hpart, hc, Option.map_some, hprogress] at hback
  have hne : (Progress.settled ⟨.plainlyDone, none, some unwritten⟩) ≠
      ⟨.plainlyDone, none, some unwritten⟩ := by
    decide +kernel
  exact hne (Option.some.inj hback)

end GuidedLab.Script
