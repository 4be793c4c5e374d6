import GuidedLab.Proofs.Script.Run
import GuidedLab.Proofs.Tree.Unrecorded

/-!
# Interrupted runs

A run is interrupted when its script is saved and a script freshly loaded from the same text takes the
snapshot back. The snapshot carries the progress of every part over (`exists_saved_of_after`). What it
does not carry is whether a question is optional, although that can be changed in a run: the fresh
script has the flag that was written. So an interruption cannot be seen in what follows exactly when
every question is as optional as it was written (`interruption_unseen_iff`), and one interaction with a
question that is not shows it. Of a recorded path the snapshot carries the text, which makes no
difference to what follows.
-/

namespace GuidedLab

namespace Tree

/-- Whether the question at an address is optional, if there is one. -/
def optionalAt? (t : Tree) (a : Address) : Option Bool :=
  (t.at? a).bind Component.optional?

/-- What a snapshot does not hold includes every optional flag. -/
theorem optionalAt?_eq_of_withoutProgress_eq {t u : Tree}
    (h : t.withoutProgress = u.withoutProgress) (a : Address) :
    t.optionalAt? a = u.optionalAt? a := by
  have hpage : (t.component? a.node).map Component.withoutProgress =
      (u.component? a.node).map Component.withoutProgress := by
    have hnode := congrArg (fun v => v.component? a.node) h
    rwa [withoutProgress, withoutProgress, component?_map, component?_map] at hnode
  rw [optionalAt?, optionalAt?, at?, at?]
  cases hc : t.component? a.node with
  | none =>
      rw [hc, Option.map_none] at hpage
      rw [Option.map_eq_none_iff.1 hpage.symm]
  | some c =>
      rw [hc, Option.map_some] at hpage
      obtain ⟨d, hd, hcd⟩ := Option.map_eq_some_iff.1 hpage.symm
      rw [hd]
      exact Component.optional?_item?_eq_of_withoutProgress_eq hcd.symm a.items

/-- A tree is what lasts together with the progress and the optional flag of every part. -/
theorem eq_of_withoutChanges_eq {t u : Tree} (h : t.withoutChanges = u.withoutChanges)
    (same : ∀ k p, (t.part? k p).map Component.progress = (u.part? k p).map Component.progress)
    (flags : ∀ a, t.optionalAt? a = u.optionalAt? a) : t = u := by
  have shape := shape_eq_of_map_eq h
  have hall : t.components = u.components := by
    apply Lists.eq_of_map_eq (components_map_eq h)
    intro k c d hc hd hcd
    have hcomponent := hc
    rw [getElem?_components] at hcomponent
    obtain ⟨node, hnode, hcnode⟩ := Option.bind_eq_some_iff.1 hcomponent
    have hdnode : u.component? node = some d := by
      rw [getElem?_components, ← preorder_eq_of_shape_eq shape, hnode, Option.bind_some] at hd
      exact hd
    apply Component.eq_of_withoutChanges_eq hcd
    · intro p
      have hp := same k p
      rwa [part?, part?, hc, hd] at hp
    · intro p
      have hp := flags ⟨node, p⟩
      rwa [optionalAt?, optionalAt?, at?, at?, hcnode, hdnode] at hp
  apply eq_of_components_eq shape
  intro k
  rw [hall]

/-- A tree without paths is what lasts together with the states, the answers and the optional flags. -/
theorem withoutPaths_eq_of_settled {t u : Tree} (h : t.withoutChanges = u.withoutChanges)
    (same : ∀ k p, (t.part? k p).map Component.progress =
      (u.part? k p).map fun c => c.progress.settled)
    (flags : ∀ a, t.optionalAt? a = u.optionalAt? a) : t.withoutPaths = u.withoutPaths := by
  have hlasting : ∀ v : Tree, v.withoutPaths.withoutChanges = v.withoutChanges := by
    intro v
    rw [withoutPaths, withoutChanges, withoutChanges, map_map]
    congr 1
    funext n c
    exact c.withoutChanges_withoutPaths
  have hprogress : ∀ (v : Tree) k p, (v.withoutPaths.part? k p).map Component.progress =
      (v.part? k p).map fun c => { c.progress with path? := none } := by
    intro v k p
    rw [part?_withoutPaths, Option.map_map]
    congr 1
    funext c
    exact c.progress_withoutPaths
  have hflags : ∀ (v : Tree) a, v.withoutPaths.optionalAt? a = v.optionalAt? a := by
    intro v a
    rw [optionalAt?, optionalAt?, at?_withoutPaths, Option.bind_map]
    congr 1
    funext c
    exact c.optional?_withoutPaths
  apply eq_of_withoutChanges_eq
  · rw [hlasting, hlasting, h]
  · intro k p
    have hp := congrArg (Option.map fun x : Progress => { x with path? := none }) (same k p)
    rw [Option.map_map, Option.map_map] at hp
    rw [hprogress, hprogress]
    exact hp
  · intro a
    rw [hflags, hflags, flags]

end Tree

/-- Without an answer, the state of a question tells whether it is optional. -/
theorem TextQuestion.state_unanswered (q : TextQuestion) :
    TextQuestion.state { q with answer := "" } = State.ofAllDone q.optional := by
  obtain ⟨text, answer, optional, number⟩ := q
  cases optional <;> rfl

theorem State.ofAllDone_injective {done done' : Bool} (h : ofAllDone done = ofAllDone done') :
    done = done' := by
  cases done <;> cases done' <;> first | rfl | cases h

namespace Script

/-- What is seen of a script after an interaction. -/
structure Sight where
  answer : Except Fault (List Tree.Change)
  states : Address → Option State
  chain : List Nat
  complete : Bool

/-- What is seen of an interaction with a script and of the script after it. -/
def sight (s : Script) (a : Address) (i : Interaction) : Sight :=
  let r := s.interact a i
  ⟨r.2, fun b => (r.1.tree.at? b).map Component.state, r.1.chain, r.1.isComplete⟩

/-- What is seen of interactions, one after the other. -/
def sights (s : Script) : List (Address × Interaction) → List Sight
  | [] => []
  | (a, i) :: rest => s.sight a i :: (s.interact a i).1.sights rest

/-- An interaction sees and changes nothing of a script but its tree and the last fault. -/
theorem interact_of_tree_eq {s t : Script} (h : s.tree = t.tree) (a : Address) (i : Interaction) :
    (s.interact a i).2 = (t.interact a i).2 ∧
      (s.interact a i).1.tree = (t.interact a i).1.tree := by
  rw [interact, interact, h]
  cases t.tree.respond? a i with
  | ok r => exact ⟨rfl, rfl⟩
  | error f => exact ⟨rfl, rfl⟩

/-- An interaction sees nothing of what is recorded. -/
theorem interact_of_withoutPaths_eq {s t : Script} (h : s.tree.withoutPaths = t.tree.withoutPaths)
    (a : Address) (i : Interaction) : (s.interact a i).2 = (t.interact a i).2 ∧
      (s.interact a i).1.tree.withoutPaths = (t.interact a i).1.tree.withoutPaths := by
  have hr := Tree.respond?_eq_of_withoutPaths_eq h a i
  rw [interact, interact]
  cases hs : s.tree.respond? a i with
  | error f =>
      rw [hs] at hr
      cases ht : t.tree.respond? a i with
      | error g =>
          rw [ht] at hr
          cases hr
          exact ⟨rfl, h⟩
      | ok r =>
          rw [ht] at hr
          cases hr
  | ok r =>
      rw [hs] at hr
      cases ht : t.tree.respond? a i with
      | error g =>
          rw [ht] at hr
          cases hr
      | ok r' =>
          rw [ht] at hr
          injection hr with hr
          injection hr with htree hchanges
          exact ⟨congrArg Except.ok hchanges, htree⟩

theorem sight_eq_of_withoutPaths_eq {s t : Script} (h : s.tree.withoutPaths = t.tree.withoutPaths)
    (a : Address) (i : Interaction) : s.sight a i = t.sight a i := by
  obtain ⟨hanswer, htree⟩ := interact_of_withoutPaths_eq h a i
  obtain ⟨hchain, hcomplete⟩ := Tree.isComplete_eq_of_withoutPaths_eq htree
  have hstates : (fun b => ((s.interact a i).1.tree.at? b).map Component.state) =
      fun b => ((t.interact a i).1.tree.at? b).map Component.state :=
    funext (Tree.state_at?_of_withoutPaths_eq htree)
  rw [sight, sight, hanswer, hstates, isComplete, isComplete, chain, chain, hcomplete, hchain]

theorem sights_eq_of_withoutPaths_eq {s t : Script} (h : s.tree.withoutPaths = t.tree.withoutPaths)
    (later : List (Address × Interaction)) : s.sights later = t.sights later := by
  induction later generalizing s t with
  | nil => rfl
  | cons x rest ih =>
      obtain ⟨a, i⟩ := x
      rw [sights, sights, sight_eq_of_withoutPaths_eq h,
        ih (interact_of_withoutPaths_eq h a i).2]

/-- Taking an answer away shows whether a question is optional. -/
theorem states_sight_answer {s : Script} {a : Address} {name : String} {state : State}
    {q : TextQuestion} (h : s.tree.at? a = some (.leaf name state (.textQuestion q))) :
    (s.sight a (.answer "")).states a = some (TextQuestion.state { q with answer := "" }) := by
  obtain ⟨c, hc, hitem⟩ := Option.bind_eq_some_iff.1 h
  obtain ⟨d, changes, hd⟩ :=
    Component.exists_responds hitem (.leaf name state (.answer "" q))
  have hr : s.tree.respond? a (.answer "") =
      .ok (s.tree.set a.node d, changes.map (.ofItem a.node)) :=
    Tree.respond?_eq_ok_iff.2 ⟨c, d, changes, hc, Component.respond?_eq_ok_iff.2 hd, rfl, rfl⟩
  obtain ⟨e, e', he, hreacts, he'⟩ := hd.target
  rw [hitem] at he
  cases he
  rw [sight, interact, hr]
  dsimp only
  rw [Tree.at?, Tree.component?_set_self hc, Option.bind_some, he']
  cases hreacts with
  | leaf name before hreacts =>
      cases hreacts
      rfl

/-- Scripts that agree in what lasts and in the progress of every part cannot be told apart by
interactions exactly when they agree in which questions are optional. -/
theorem sights_eq_iff {s t : Script} (lasting : s.tree.withoutChanges = t.tree.withoutChanges)
    (same : ∀ k p, (s.tree.part? k p).map Component.progress =
      (t.tree.part? k p).map fun c => c.progress.settled) :
    (∀ later, s.sights later = t.sights later) ↔
      ∀ a, s.tree.optionalAt? a = t.tree.optionalAt? a := by
  constructor
  · intro h a
    have hlasting := Tree.at?_map_eq_of_withoutChanges_eq lasting a
    rw [Tree.optionalAt?, Tree.optionalAt?]
    cases hc : s.tree.at? a with
    | none =>
        rw [hc, Option.map_none] at hlasting
        rw [Option.map_eq_none_iff.1 hlasting.symm]
    | some c =>
        rw [hc, Option.map_some] at hlasting
        obtain ⟨d, hd, hcd⟩ := Option.map_eq_some_iff.1 hlasting.symm
        rw [hd, Option.bind_some, Option.bind_some]
        rcases Component.textQuestion_or_optional?_eq hcd.symm with
          ⟨name, state, state', q, q', rfl, rfl⟩ | heq
        · have hsights := h [(a, .answer "")]
          injection hsights with hsight
          have hstates : (s.sight a (.answer "")).states a = (t.sight a (.answer "")).states a := by
            rw [hsight]
          rw [states_sight_answer hc, states_sight_answer hd, TextQuestion.state_unanswered,
            TextQuestion.state_unanswered] at hstates
          injection hstates with hstates
          exact congrArg some (State.ofAllDone_injective hstates)
        · exact heq
  · intro h later
    exact sights_eq_of_withoutPaths_eq (Tree.withoutPaths_eq_of_settled lasting same h) later

/-- A script that is made anew takes back what was saved of it in any of its runs. -/
theorem exists_saved_of_after {fresh : Script} (made : fresh.Made)
    (ne : fresh.tree.isEmpty = false) (before : List Call) (a : Archive) :
    ∃ saved, ((fresh.after before).save a).2 = .ok saved ∧ (fresh.load saved).2 = .ok () ∧
      (fresh.load saved).1.tree.withoutProgress = fresh.tree.withoutProgress ∧
      ∀ k p, ((fresh.load saved).1.tree.part? k p).map Component.progress =
        ((fresh.after before).tree.part? k p).map fun c => c.progress.settled := by
  have same : (fresh.after before).tree.outline = fresh.tree.outline :=
    Tree.outline_eq_of_withoutChanges_eq (fresh.withoutChanges_after before)
  have ne' : (fresh.after before).tree.isEmpty = false := by
    rw [Tree.isEmpty_eq_false_iff] at ne ⊢
    rwa [← Tree.length_outline, same, Tree.length_outline]
  obtain ⟨saved, restored, hsaved, -, hrestored, hlasting, hprogress⟩ :=
    Tree.restored?_savedInto a ne' (made.isContained_after before) same
  have hload : fresh.load saved = ({ fresh with tree := restored }, .ok ()) := by
    rw [load, hrestored]
  refine ⟨saved, hsaved, ?_, ?_, ?_⟩
  · rw [hload]
  · rw [hload]
    exact hlasting
  · rw [hload]
    exact hprogress

/-- What is seen after an interruption is what would have been seen without it, exactly when the
run has left every question as optional as it was. -/
theorem sights_load_iff {fresh : Script} {before : List Call} {saved : Archive}
    (lasting : (fresh.load saved).1.tree.withoutProgress = fresh.tree.withoutProgress)
    (same : ∀ k p, ((fresh.load saved).1.tree.part? k p).map Component.progress =
      ((fresh.after before).tree.part? k p).map fun c => c.progress.settled) :
    (∀ later, (fresh.load saved).1.sights later = (fresh.after before).sights later) ↔
      ∀ b, (fresh.after before).tree.optionalAt? b = fresh.tree.optionalAt? b := by
  have hchanges : (fresh.load saved).1.tree.withoutChanges =
      (fresh.after before).tree.withoutChanges := by
    rw [fresh.withoutChanges_after before]
    exact Tree.withoutChanges_eq_of_withoutProgress_eq lasting
  rw [sights_eq_iff hchanges same]
  apply forall_congr'
  intro b
  rw [Tree.optionalAt?_eq_of_withoutProgress_eq lasting, eq_comm]

/-- A run of a loaded script can be saved, and a script freshly loaded from the same text takes the
snapshot back. All that follows is then the same at every step, exactly when the run has left every
question as optional as it was written. -/
theorem interruption_unseen_iff {text : String} {fresh : Script}
    (loaded : Source.script text = .ok fresh) (before : List Call) (a : Archive) :
    ∃ saved, ((fresh.after before).save a).2 = .ok saved ∧ (fresh.load saved).2 = .ok () ∧
      ((∀ later, (fresh.load saved).1.sights later = (fresh.after before).sights later) ↔
        ∀ b, (fresh.after before).tree.optionalAt? b = fresh.tree.optionalAt? b) := by
  obtain ⟨saved, hsaved, hloaded, hlasting, hprogress⟩ :=
    exists_saved_of_after (.loaded loaded) (Source.isEmpty_of_script loaded) before a
  exact ⟨saved, hsaved, hloaded, sights_load_iff hlasting hprogress⟩

/-- The text of a script with one question. -/
def questionText : String :=
  "\x7b\"title\": \"T\", \"pages\": [\x7b\"component\": \x7b\"type\": \"text_question\", " ++
    "\"name\": \"q\", \"text\": \"Why?\"\x7d\x7d]\x7d"

/-- The script with one question. -/
def question : Script := .new "T" (.new (.ofTextQuestion "q" "Why?" false))

theorem script_questionText : Source.script questionText = .ok question := by
  apply Source.script_of_ofList
  · exact Source.append_eq_ofList rfl rfl
  · decide +kernel

theorem interruption_unseen_of_answer :
    ∃ saved, ((question.after [.interact (.ofNode 0) (.answer "Gravity")]).save .empty).2 =
        .ok saved ∧ (question.load saved).2 = .ok () ∧
      ∀ later, (question.load saved).1.sights later =
        (question.after [.interact (.ofNode 0) (.answer "Gravity")]).sights later := by
  obtain ⟨saved, hsaved, hloaded, hiff⟩ := interruption_unseen_iff script_questionText
    [.interact (.ofNode 0) (.answer "Gravity")] .empty
  refine ⟨saved, hsaved, hloaded, hiff.2 ?_⟩
  rintro ⟨node, items⟩
  cases node with
  | zero => cases items <;> rfl
  | succ node => rfl

/-- Not every interruption goes unseen: a question that was made optional is not so any more. -/
theorem interruption_seen : ¬ ∀ (text : String) (fresh : Script)
    (before later : List (Address × Interaction)) (a saved : Archive),
    Source.script text = .ok fresh →
      ((fresh.after (before.map fun x => .interact x.1 x.2)).save a).2 = .ok saved →
        (fresh.load saved).2 = .ok () →
          (fresh.load saved).1.sights later =
            (fresh.after (before.map fun x => .interact x.1 x.2)).sights later := by
  intro h
  let before : List (Address × Interaction) := [(.ofNode 0, .optional true)]
  obtain ⟨saved, hsaved, hloaded, hlasting, hprogress⟩ :=
    exists_saved_of_after (.loaded script_questionText) rfl
      (before.map fun x => .interact x.1 x.2) .empty
  have hflags := (sights_load_iff hlasting hprogress).1 fun later =>
    h questionText question before later .empty saved script_questionText hsaved hloaded
  exact absurd (hflags (.ofNode 0)) (by decide)

end Script

end GuidedLab
