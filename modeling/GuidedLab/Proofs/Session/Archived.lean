import GuidedLab.Proofs.Archive.Depth
import GuidedLab.Proofs.Archive.Text
import GuidedLab.Proofs.Session.Acts

/-!
# The archive of a session

A session that works on the script of a text (`Session.WorksOn`) can always be archived. The archive is
not too deep to be read back from its text, holds the name of the script and the place of the selected
page, and is taken back by the script as it is loaded from the text (`WorksOn.exists_archive`). The
place is kept as a number of 64 bits, so it has to be one: it is, as long as the text has fewer bytes
than that.
-/

namespace GuidedLab

/-- What is held in memory is smaller than this, and a number below it is archived as it is. -/
def memoryLimit : Nat := 9223372036854775808

/-- Every character takes a byte. -/
theorem Text.length_le_utf8ByteSize (s : String) : s.toList.length ≤ s.utf8ByteSize := by
  have key : ∀ cs : List Char, cs.length ≤ (cs.flatMap String.utf8EncodeChar).length := by
    intro cs
    induction cs with
    | nil => exact Nat.le_refl _
    | cons c cs ih =>
        rw [List.flatMap_cons, List.length_append, String.length_utf8EncodeChar, List.length_cons]
        have := c.utf8Size_pos
        omega
  rw [← String.size_toByteArray, ← String.utf8Encode_toList, List.utf8Encode, List.size_toByteArray]
  exact key _

namespace Tree

theorem length_follow_le (branch? : Option UInt32) (t : Branches Component) :
    (t.follow branch?).length ≤ t.size := by
  induction t generalizing branch? with
  | nil => exact Nat.le_refl _
  | cons b n c after others iha iho =>
      rw [Branches.follow_cons, Branches.size]
      have ha := iha c.state.branch?
      have ho := iho branch?
      split
      · rw [List.length_cons]
        omega
      · omega

/-- A chain has no more pages than the tree. -/
theorem length_chain_le (t : Tree) : t.chain.length ≤ t.size :=
  length_follow_le (some 0) t.pages

/-- Trees of one shape have the same chain if one has in every part what is read back of the other's
progress. -/
theorem chain_eq_of_settled {t u : Tree} (shape : t.pages.shape = u.pages.shape)
    (same : ∀ k p, (t.part? k p).map Component.progress =
      (u.part? k p).map fun c => c.progress.settled) : t.chain = u.chain := by
  apply chain_eq_of_states shape
  intro node
  have hpage : ∀ v : Tree, v.at? (.ofNode node) = v.component? node := by
    intro v
    rw [at?, Address.ofNode]
    cases v.component? node with
    | none => rfl
    | some c => cases c <;> rfl
  have hstate : (fun c : Component => c.progress.state) = Component.state := by
    funext c
    cases c <;> rfl
  have hnode := congrArg (Option.map Progress.state) (at?_map_eq_of_parts shape same (.ofNode node))
  rw [Option.map_map, Option.map_map, hpage, hpage] at hnode
  rw [← hstate]
  exact hnode

end Tree

namespace Session

variable {c : Config} {folder source : Path} {name text : String} {s t : Session} {d d' : Disk}

/-- A session in the folder of a run that works on the script of a text, by its name. -/
structure WorksOn (c : Config) (folder : Path) (name text : String) (s : Session) : Prop where
  layout : s.layout = Run.Layout.of c folder
  named : s.name = name
  plain : Path.IsPlain name
  ran : ∃ fresh calls, Source.script text = .ok fresh ∧ s.script.title = fresh.title ∧
    s.script.tree = (fresh.after calls).tree
  inStep : s.InStep

theorem WorksOn.act (h : s.WorksOn c folder name text) (act : Act) (d : Disk) :
    (s.act act d).1.1.WorksOn c folder name text := by
  have hstep := h.inStep.act act d
  obtain ⟨fresh, calls, hload, htitle, htree⟩ := h.ran
  rcases s.act_cases act d with ⟨-, bookmark, hs⟩ | ⟨a, i, bookmark, hs⟩ <;> rw [hs] at hstep ⊢
  · exact ⟨h.layout, h.named, h.plain, h.ran, hstep⟩
  · refine ⟨h.layout, h.named, h.plain, ⟨fresh, calls ++ [.interact a i], hload, ?_, ?_⟩, hstep⟩
    · exact (s.script.title_interact a i).trans htitle
    · rw [Script.after_concat]
      exact (Script.interact_of_tree_eq htree a i).2

/-- There are fewer pages than there are numbers for their places. -/
theorem WorksOn.current_lt (h : s.WorksOn c folder name text) (fits : text.utf8ByteSize < memoryLimit) :
    s.bookmark.current < memoryLimit := by
  obtain ⟨fresh, calls, hload, -, htree⟩ := h.ran
  have hcurrent := h.inStep.bookmark.current
  rw [h.inStep.bookmark.chain] at hcurrent
  have hchain := s.script.tree.length_chain_le
  have hsize : s.script.tree.size = fresh.tree.size := by
    rw [htree]
    exact Branches.size_eq_of_shape_eq
      (Tree.shape_eq_of_map_eq (fresh.withoutChanges_after calls))
  have hwritten := (Source.written_of_script hload).1
  have hbytes := Text.length_le_utf8ByteSize text
  omega

theorem nameKey_ne_repr (n : Nat) : nameKey ≠ Nat.repr n :=
  (Text.repr_ne (c := 's') (by decide) (by decide) n).symm

theorem placeKey_ne_repr (n : Nat) : placeKey ≠ Nat.repr n :=
  (Text.repr_ne (c := 'c') (by decide) (by decide) n).symm

/-- A session can be archived, and the script that its text gives takes the archive back. -/
theorem WorksOn.exists_archive (h : s.WorksOn c folder name text) :
    ∃ a fresh restored, s.archive = .ok a ∧ a.depth ≤ Json.depthLimit ∧
      a.text? nameKey = some name ∧
      a.int? placeKey = some (Int64.ofNat s.bookmark.current) ∧
      Source.script text = .ok fresh ∧ s.script.title = fresh.title ∧
      fresh.tree.restored? a = .ok restored ∧
      restored.withoutProgress = fresh.tree.withoutProgress ∧
      restored.withoutChanges = s.script.tree.withoutChanges ∧
      ∀ k p, (restored.part? k p).map Component.progress =
        (s.script.tree.part? k p).map fun c => c.progress.settled := by
  obtain ⟨fresh, calls, hload, htitle, htree⟩ := h.ran
  have hlasting : s.script.tree.withoutChanges = fresh.tree.withoutChanges := by
    rw [htree]
    exact fresh.withoutChanges_after calls
  have hne : s.script.tree.isEmpty = false := by
    rw [Tree.isEmpty_eq_of_shape_eq (Tree.shape_eq_of_map_eq hlasting)]
    exact Source.isEmpty_of_script hload
  have hcontained : s.script.tree.IsContained := by
    rw [htree]
    exact Script.Made.isContained_after (.loaded hload) calls
  let start := (Archive.empty.putText nameKey s.name).putInt placeKey
    (Int64.ofNat s.bookmark.current)
  obtain ⟨a, restored, hsaved, hkeys, hrestored, hrest, hprogress⟩ :=
    Tree.restored?_savedInto start hne hcontained (Tree.outline_eq_of_withoutChanges_eq hlasting)
  have hwritten : s.script.tree.IsWritten (Json.depthLimit - 1) :=
    (Source.written_of_script hload).2.of_withoutChanges_eq hlasting
  refine ⟨a, fresh, restored, hsaved, ?_, ?_, ?_, hload, htitle, hrestored, hrest, ?_, hprogress⟩
  · refine Tree.depth_savedInto_le hwritten ?_ hsaved
    apply Archive.depth_put_plain_le _ rfl
    apply Archive.depth_put_plain_le _ rfl
    decide
  · have hget : a.get? nameKey = start.get? nameKey :=
      hkeys nameKey (by decide) fun k _ => nameKey_ne_repr k
    rw [Archive.text?_eq_of_get?_eq hget, ← h.named]
    have hput : start.get? nameKey = (Archive.empty.putText nameKey s.name).get? nameKey :=
      Archive.get?_put_of_ne _ (by decide) _
    rw [Archive.text?_eq_of_get?_eq hput, Archive.text?_putText_self]
  · have hget : a.get? placeKey = start.get? placeKey :=
      hkeys placeKey (by decide) fun k _ => placeKey_ne_repr k
    rw [Archive.int?_eq_of_get?_eq hget]
    exact Archive.int?_putInt_self _ _ _
  · exact (Tree.withoutChanges_eq_of_withoutProgress_eq hrest).trans hlasting.symm

end Session

end GuidedLab
