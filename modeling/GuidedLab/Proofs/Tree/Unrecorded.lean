import GuidedLab.Proofs.Component.Unrecorded
import GuidedLab.Proofs.Tree.Chain
import GuidedLab.Proofs.Tree.Snapshot

/-!
# Trees without recorded paths

Trees that are the same up to the paths recorded in them accept the same interactions, with the same
changes, and are the same up to paths afterwards (`respond?_eq_of_withoutPaths_eq`). They have the same
states, so they have the same chain and are complete at the same time.
-/

namespace GuidedLab.Tree

variable {t u : Tree}

/-- The tree without the paths that are recorded in it. -/
def withoutPaths (t : Tree) : Tree := t.map fun _ c => c.withoutPaths

theorem component?_withoutPaths (t : Tree) (node : Nat) :
    t.withoutPaths.component? node = (t.component? node).map Component.withoutPaths :=
  component?_map _ t node

theorem component?_map_of_withoutPaths_eq (h : t.withoutPaths = u.withoutPaths) (node : Nat) :
    (t.component? node).map Component.withoutPaths = (u.component? node).map Component.withoutPaths := by
  rw [← component?_withoutPaths, h, component?_withoutPaths]

theorem part?_withoutPaths (t : Tree) (k : Nat) (p : List Nat) :
    t.withoutPaths.part? k p = (t.part? k p).map Component.withoutPaths := by
  rw [part?, part?, withoutPaths, components_map, List.getElem?_map]
  cases t.components[k]? with
  | none => rfl
  | some c => exact c.item?_withoutPaths p

theorem at?_withoutPaths (t : Tree) (a : Address) :
    t.withoutPaths.at? a = (t.at? a).map Component.withoutPaths := by
  rw [at?, at?, component?_withoutPaths]
  cases t.component? a.node with
  | none => rfl
  | some c => exact c.item?_withoutPaths a.items

theorem isEmpty_eq_of_withoutPaths_eq (h : t.withoutPaths = u.withoutPaths) :
    t.isEmpty = u.isEmpty :=
  isEmpty_eq_of_shape_eq (shape_eq_of_map_eq h)

theorem withoutPaths_set (t : Tree) (node : Nat) (c : Component) :
    (t.set node c).withoutPaths = t.withoutPaths.set node c.withoutPaths := by
  rw [withoutPaths, withoutPaths, set, set, map_map, map_map]
  congr 1
  funext n d
  split <;> rfl

/-- Trees that are the same without paths have the same states. -/
theorem state_at?_of_withoutPaths_eq (h : t.withoutPaths = u.withoutPaths) (a : Address) :
    (t.at? a).map Component.state = (u.at? a).map Component.state := by
  have key : ∀ v : Tree, (v.at? a).map Component.state = (v.withoutPaths.at? a).map Component.state := by
    intro v
    rw [at?_withoutPaths, Option.map_map]
    congr 1
    funext c
    exact c.state_withoutPaths.symm
  rw [key t, key u, h]

theorem state_component?_of_withoutPaths_eq (h : t.withoutPaths = u.withoutPaths) (node : Nat) :
    (t.component? node).map Component.state = (u.component? node).map Component.state := by
  have key : ∀ v : Tree, (v.component? node).map Component.state =
      (v.withoutPaths.component? node).map Component.state := by
    intro v
    rw [component?_withoutPaths, Option.map_map]
    congr 1
    funext c
    exact c.state_withoutPaths.symm
  rw [key t, key u, h]

/-- A tree that is complete is complete whatever is recorded in it. -/
theorem isComplete_eq_of_withoutPaths_eq (h : t.withoutPaths = u.withoutPaths) :
    t.chain = u.chain ∧ t.isComplete t.chain = u.isComplete u.chain := by
  have hchain : t.chain = u.chain :=
    chain_eq_of_states (shape_eq_of_map_eq h) (state_component?_of_withoutPaths_eq h)
  have hdone : ∀ node, t.IsDone node ↔ u.IsDone node := by
    intro node
    have key : ∀ v : Tree, v.IsDone node ↔
        ∃ s, (v.component? node).map Component.state = some s ∧ s.isDone = true := by
      intro v
      rw [IsDone]
      cases v.component? node <;> simp
    rw [key, key, state_component?_of_withoutPaths_eq h]
  refine ⟨hchain, ?_⟩
  rw [Bool.eq_iff_iff, isComplete_chain_iff, isComplete_chain_iff, hchain,
    isEmpty_eq_of_withoutPaths_eq h]
  simp only [hdone]

/-- A tree and its changes, without paths. -/
def unrecorded (r : Tree × List Change) : Tree × List Change := (r.1.withoutPaths, r.2)

/-- Trees that are the same without paths respond in the same way. -/
theorem respond?_eq_of_withoutPaths_eq (h : t.withoutPaths = u.withoutPaths) (a : Address)
    (i : Interaction) : (t.respond? a i).map unrecorded = (u.respond? a i).map unrecorded := by
  have hnode := component?_map_of_withoutPaths_eq h a.node
  rw [respond?, respond?]
  cases hc : t.component? a.node with
  | none =>
      rw [hc] at hnode
      rw [Option.map_eq_none_iff.1 hnode.symm, isEmpty_eq_of_withoutPaths_eq h]
  | some c =>
      rw [hc] at hnode
      obtain ⟨d, hd, hcd⟩ := Option.map_eq_some_iff.1 hnode.symm
      rw [hd]
      have key : ∀ (v : Tree) (x : Except Fault (Component × List ItemChange)),
          (x.map fun r => (v.set a.node r.1, r.2.map (.ofItem a.node))).map unrecorded =
            (x.map Component.unrecorded).map fun r =>
              (v.withoutPaths.set a.node r.1, r.2.map (.ofItem a.node)) := by
        rintro v (_ | r)
        · rfl
        · simp only [Except.map, unrecorded, Component.unrecorded, withoutPaths_set]
      refine (key t _).trans (Eq.trans ?_ (key u _).symm)
      rw [h, Component.respond?_eq_of_withoutPaths_eq hcd.symm]

end GuidedLab.Tree
