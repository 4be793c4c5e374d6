import GuidedLab.Proofs.Script.Run
import GuidedLab.Proofs.Script.Turns
import GuidedLab.Proofs.Tree.Refusal

/-!
# Refused turns of a script

A turn that is refused leaves its words in the script and no other trace: the tree, the title, the
subscriptions and an archive that was to be saved into are as they were, and no one is told anything
(`turn_cases`). A turn that is not refused leaves the words as they were.

That is so by the form of the operations, which answer a new script. It is therefore also shown of the
operations as they are carried out, write by write: interactions in the tree itself
(`interactInPlace`), and the restoring in a copy of it (`Tree.restoredOnCopy`), which may be half
restored when it is given up.
-/

namespace GuidedLab

namespace Script

/-- The script after the writes of an interaction, and the changes or the fault that ended it. -/
def interactInPlace (s : Script) (a : Address) (i : Interaction) :
    Script × Except Fault (List Tree.Change) :=
  let (tree, r) := s.tree.inPlace a i
  ({ s with tree }.remembering r, r)

theorem interactInPlace_eq (s : Script) (a : Address) (i : Interaction) :
    s.interactInPlace a i = s.interact a i := by
  rw [interactInPlace, interact, Tree.inPlace_eq]
  cases s.tree.respond? a i <;> rfl

theorem interact_eq_error_iff {s : Script} {a : Address} {i : Interaction} {f : Fault} :
    (s.interact a i).2 = .error f ↔ s.tree.Refuses a i f := by
  rw [← Tree.respond?_eq_error_iff, interact]
  cases s.tree.respond? a i <;> simp

/-- A turn is refused and leaves its words and no other trace, or it is carried out and leaves the
words as they were. -/
theorem turn_cases (s : Script) (t : Turn) :
    (∃ f, s.turn t = ⟨{ s with lastError := f.message }, some f, [], t.given?⟩) ∨
      (s.turn t).fault? = none ∧ (s.turn t).script.lastError = s.lastError := by
  cases t with
  | subscribe => exact Or.inr ⟨rfl, rfl⟩
  | unsubscribe n =>
      refine Or.inr ⟨rfl, ?_⟩
      rw [turn, unsubscribe]
      split <;> rfl
  | start =>
      refine Or.inr ⟨rfl, ?_⟩
      rw [turn]
      rcases s.start_cases with h | ⟨c, -, -, h⟩ <;> rw [h]
  | check =>
      rw [turn, check]
      cases s.tree.check with
      | ok x => exact Or.inr ⟨rfl, rfl⟩
      | error f => exact Or.inl ⟨f, rfl⟩
  | interact a i =>
      rw [turn]
      rcases s.interact_cases a i with ⟨tree, changes, -, h⟩ | ⟨f, -, h⟩ <;> rw [h]
      · exact Or.inr ⟨rfl, rfl⟩
      · exact Or.inl ⟨f, rfl⟩
  | override a state =>
      rw [turn, override]
      rcases s.interact_cases a (.override state) with ⟨tree, changes, -, h⟩ | ⟨f, -, h⟩ <;> rw [h]
      · exact Or.inr ⟨rfl, rfl⟩
      · exact Or.inl ⟨f, rfl⟩
  | save archive =>
      rw [turn, save]
      cases s.tree.savedInto archive with
      | ok saved => exact Or.inr ⟨rfl, rfl⟩
      | error f => exact Or.inl ⟨f, rfl⟩
  | load archive =>
      rw [turn]
      rcases s.load_cases archive with ⟨tree, -, h⟩ | ⟨f, -, h⟩ <;> rw [h]
      · exact Or.inr ⟨rfl, rfl⟩
      · exact Or.inl ⟨f, rfl⟩

/-- Interactions are refused in the cases of `Tree.Refuses` and in no other. Whatever turn is refused
has changed nothing but the words that tell why, and is not told to anyone; a turn that is carried out
leaves these words. All this is so of the turns as they are carried out, interactions write by write
and the restoring page by page. -/
theorem refused_without_trace (s : Script) :
    (∀ a i f, (s.interact a i).2 = .error f ↔ s.tree.Refuses a i f) ∧
    (∀ a state f, (s.override a state).2 = .error f ↔ s.tree.Refuses a (.override state) f) ∧
    (∀ a i, s.interactInPlace a i = s.interact a i) ∧
    (∀ archive, s.tree.restoredOnCopy archive = s.tree.restored? archive) ∧
    (∀ t f, (s.turn t).fault? = some f →
      s.turn t = ⟨{ s with lastError := f.message }, some f, [], t.given?⟩ ∧
      (s.turn t).deliveries = []) ∧
    ∀ t, (s.turn t).fault? = none → (s.turn t).script.lastError = s.lastError := by
  refine ⟨fun a i f => interact_eq_error_iff, fun a state f => interact_eq_error_iff,
    s.interactInPlace_eq, fun archive => (s.tree.restored?_eq archive).symm, ?_, ?_⟩
  · intro t f hf
    rcases s.turn_cases t with ⟨f', h⟩ | ⟨h, -⟩
    · rw [h] at hf
      cases hf
      rw [h]
      exact ⟨rfl, deliveries_nil _⟩
    · rw [h] at hf
      cases hf
  · intro t ht
    rcases s.turn_cases t with ⟨f, h⟩ | ⟨-, h⟩
    · rw [h] at ht
      cases ht
    · exact h

/-- A snapshot of `sample` from which the second item of its page is missing. -/
def halfSaved : Archive :=
  (Archive.empty.putNested "0"
    ((Archive.empty.putInt State.key 0).putNested "0" (Archive.empty.putInt State.key 0))).putText
      Tree.fingerprintKey sample.tree.fingerprint

theorem refused_without_trace_halfSaved :
    (sample.tree.restoreEach halfSaved 0 [0]).1 ≠ sample.tree ∧
    (sample.turn (.load halfSaved)).fault? = some (.noSavedItem "time" 1) ∧
    (sample.turn (.load halfSaved)).script.tree = sample.tree ∧
    (sample.turn (.interact ⟨0, [1]⟩ (.check true))).script.lastError =
      "component \"time\" does not accept set-checked" ∧
    (sample.turn (.interact ⟨0, [0]⟩ (.check true))).script.lastError = "" := by
  obtain ⟨-, -, -, -, hrefused, hdone⟩ := refused_without_trace sample
  have hload : (sample.turn (.load halfSaved)).fault? = some (.noSavedItem "time" 1) := by
    have fits : halfSaved.text? Tree.fingerprintKey = some sample.tree.fingerprint :=
      Archive.text?_putText_self _ _ _
    rw [turn, load, Tree.restored?_eq_error rfl fits rfl]
    rfl
  refine ⟨by decide, hload, ?_, ?_, hdone _ rfl⟩
  · rw [(hrefused _ _ hload).1]
  · rw [(hrefused _ _ rfl).1]
    rfl

end Script

end GuidedLab
