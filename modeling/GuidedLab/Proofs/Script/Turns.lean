import GuidedLab.Script

/-!
# Turns of a script

Whatever is asked of a script at run time is a turn: subscribing and ending a subscription, the check,
the start, interactions, saving and loading. `turn` carries out one of them and tells all that comes of
it: the script afterwards, the fault if it was refused, the changes that were reported, and the archive
that was given to be saved into as its owner finds it afterwards.

What the listener is told of a turn are the `deliveries` of its changes. `deliveredIn` collects them
over turns, together with the changes themselves (`changesIn`) and the script at the end
(`afterTurns`).
-/

namespace GuidedLab

/-- The fault that an answer is, if it is one. -/
def faultOf? {α : Type} : Except Fault α → Option Fault
  | .ok _ => none
  | .error f => some f

namespace Script

/-- What is asked of a script. -/
inductive Turn where
  | subscribe
  | unsubscribe (subscription : Nat)
  | check
  | start
  | interact (a : Address) (i : Interaction)
  | override (a : Address) (state : State)
  | save (archive : Archive)
  | load (archive : Archive)

/-- The archive that is given to be saved into. -/
def Turn.given? : Turn → Option Archive
  | .save archive => some archive
  | _ => none

/-- What comes of a turn. -/
structure Outcome where
  script : Script
  fault? : Option Fault
  changes : List Tree.Change
  /-- The archive that was given to be saved into, as it is now. -/
  given? : Option Archive

/-- A turn of a script. A refused turn reports no change, and the given archive is exchanged only for
one that was saved. -/
def turn (s : Script) : Turn → Outcome
  | .subscribe => ⟨s.subscribe.1, none, [], none⟩
  | .unsubscribe n => ⟨s.unsubscribe n, none, [], none⟩
  | .check => ⟨s.check.1, faultOf? s.check.2, [], none⟩
  | .start => ⟨s.start.1, none, s.start.2.getD [], none⟩
  | .interact a i =>
    let r := s.interact a i
    ⟨r.1, faultOf? r.2, r.2.toOption.getD [], none⟩
  | .override a state =>
    let r := s.override a state
    ⟨r.1, faultOf? r.2, r.2.toOption.getD [], none⟩
  | .save archive =>
    let r := s.save archive
    ⟨r.1, faultOf? r.2, [], some (r.2.toOption.getD archive)⟩
  | .load archive => ⟨(s.load archive).1, faultOf? (s.load archive).2, [], none⟩

/-- What the listener is told of a turn, with the script as it is after the whole turn. -/
def Outcome.deliveries (o : Outcome) : List Delivery := o.script.deliveries o.changes

/-- The script after turns, one after the other. -/
def afterTurns (s : Script) (turns : List Turn) : Script :=
  turns.foldl (fun s t => (s.turn t).script) s

/-- The changes that turns report, in their order. -/
def changesIn (s : Script) : List Turn → List Tree.Change
  | [] => []
  | t :: rest => (s.turn t).changes ++ (s.turn t).script.changesIn rest

/-- What listeners are told in the course of turns. -/
def deliveredIn (s : Script) : List Turn → List Delivery
  | [] => []
  | t :: rest => (s.turn t).deliveries ++ (s.turn t).script.deliveredIn rest

@[simp] theorem afterTurns_nil (s : Script) : s.afterTurns [] = s := rfl

theorem afterTurns_cons (s : Script) (t : Turn) (rest : List Turn) :
    s.afterTurns (t :: rest) = (s.turn t).script.afterTurns rest := rfl

theorem afterTurns_append (s : Script) (first later : List Turn) :
    s.afterTurns (first ++ later) = (s.afterTurns first).afterTurns later :=
  List.foldl_append

/-- What an interaction does to a script is told by the tree. -/
theorem interact_cases (s : Script) (a : Address) (i : Interaction) :
    (∃ tree changes, s.tree.respond? a i = .ok (tree, changes) ∧
      s.interact a i = ({ s with tree }, .ok changes)) ∨
    ∃ f, s.tree.respond? a i = .error f ∧
      s.interact a i = ({ s with lastError := f.message }, .error f) := by
  rw [interact]
  cases s.tree.respond? a i with
  | ok r => exact Or.inl ⟨r.1, r.2, rfl, rfl⟩
  | error f => exact Or.inr ⟨f, rfl, rfl⟩

/-- A start makes a root ongoing that is not past it, and does nothing else. -/
theorem start_cases (s : Script) :
    s.start = (s, none) ∨ ∃ c, s.tree.component? 0 = some c ∧ c.state.le .ongoing = true ∧
      s.start = ({ s with tree := s.tree.set 0 (c.withState .ongoing) },
        some ((Component.changed c.state .ongoing).map (.ofItem 0))) := by
  rw [start]
  cases hc : s.tree.component? 0 with
  | none => exact Or.inl rfl
  | some c =>
      by_cases h : c.state.le .ongoing = true
      · exact Or.inr ⟨c, rfl, h, if_pos h⟩
      · exact Or.inl (if_neg h)

theorem load_cases (s : Script) (archive : Archive) :
    (∃ tree, s.tree.restored? archive = .ok tree ∧ s.load archive = ({ s with tree }, .ok ())) ∨
    ∃ f, s.tree.restored? archive = .error f ∧
      s.load archive = ({ s with lastError := f.message }, .error f) := by
  rw [load]
  cases s.tree.restored? archive with
  | ok tree => exact Or.inl ⟨tree, rfl, rfl⟩
  | error f => exact Or.inr ⟨f, rfl, rfl⟩

theorem script_interact_eq (s : Script) (a : Address) (i : Interaction) :
    ∃ tree lastError, (s.interact a i).1 = { s with tree, lastError } := by
  rcases s.interact_cases a i with ⟨tree, changes, -, h⟩ | ⟨f, -, h⟩
  · exact ⟨tree, s.lastError, by rw [h]⟩
  · exact ⟨s.tree, f.message, by rw [h]⟩

theorem title_interact (s : Script) (a : Address) (i : Interaction) :
    (s.interact a i).1.title = s.title := by
  obtain ⟨tree, lastError, h⟩ := s.script_interact_eq a i
  rw [h]

theorem remembering_eq {α : Type} (s : Script) (r : Except Fault α) :
    ∃ tree lastError, s.remembering r = { s with tree, lastError } := by
  cases r with
  | ok x => exact ⟨s.tree, s.lastError, rfl⟩
  | error f => exact ⟨s.tree, f.message, rfl⟩

/-- Apart from subscriptions, a turn changes nothing of a script but its tree and the last fault. -/
theorem script_turn_eq (s : Script) {t : Turn} (hs : t ≠ .subscribe)
    (hu : ∀ n, t ≠ .unsubscribe n) :
    ∃ tree lastError, (s.turn t).script = { s with tree, lastError } := by
  cases t with
  | subscribe => exact absurd rfl hs
  | unsubscribe n => exact absurd rfl (hu n)
  | check => exact s.remembering_eq _
  | save archive => exact s.remembering_eq _
  | start =>
      rw [turn]
      rcases s.start_cases with h | ⟨c, -, -, h⟩
      · exact ⟨s.tree, s.lastError, by rw [h]⟩
      · exact ⟨_, s.lastError, by rw [h]⟩
  | interact a i => exact s.script_interact_eq a i
  | override a state => exact s.script_interact_eq a (.override state)
  | load archive =>
      rw [turn]
      rcases s.load_cases archive with ⟨tree, -, h⟩ | ⟨f, -, h⟩
      · exact ⟨tree, s.lastError, by rw [h]⟩
      · exact ⟨s.tree, f.message, by rw [h]⟩

end Script

end GuidedLab
