import GuidedLab.Proofs.Component.Finished
import GuidedLab.Proofs.Script.Independence
import GuidedLab.Proofs.Source.Consistent
import GuidedLab.Proofs.Tree.MainLine

/-!
# No dead ends

A learner ticks, answers, records and makes questions optional, but overrides nothing. As long as only
a learner is at work, no page has an outcome, and what a learner sees is an initial part of the main
line. Whatever the learner has done, the script can still be completed exactly when every sheet on the
main line has an item (`exists_complete_iff`).

To complete it, every element is finished in turn (`finishing`). Each is done afterwards, and what
comes later leaves it so, since it is about another element (`isFinishedAt_after_finishing`).
-/

namespace GuidedLab

theorem Element.branch?_dueState {e : Element} {lastTick : Option Bool} {branch : UInt32}
    (h : (e.dueState lastTick).branch? = some branch) : branch = 0 := by
  cases e with
  | checkbox | textQuestion | experiment =>
      rw [dueState] at h
      split at h
      · exact (Option.some.inj h).symm
      · cases h
  | _ => exact (Option.some.inj h).symm

theorem State.branch?_ofAllDone {done : Bool} {branch : UInt32}
    (h : (ofAllDone done).branch? = some branch) : branch = 0 := by
  cases done with
  | true => exact (Option.some.inj h).symm
  | false => cases h

namespace Tree

/-- A tree as a learner may leave it: sheets are in the state of their items and elements in one that is
due after some last tick. -/
structure IsDue (t : Tree) : Prop where
  current : t.IsCurrent
  due : ∀ a, ∃ lastTick, t.IsDueAt a lastTick

/-- Every sheet on a page of the main line has an item. -/
def HasFilledMainLine (t : Tree) : Prop :=
  ∀ node ∈ t.mainLine, ∀ c, t.component? node = some c → c.Every Component.IsFilled

/-- The element at an address, if one is there, is done. -/
def IsFinishedAt (t : Tree) (a : Address) : Prop :=
  ∀ e, t.at? a = some e → e.IsFinished

/-- What finishes the element at an address. -/
def finishing (t : Tree) (a : Address) : Interaction :=
  ((t.at? a).map Component.finishing).getD (.check true)

/-- The addresses of all elements, page by page. -/
def elementAddresses (t : Tree) : List Address :=
  t.preorder.flatMap fun node =>
    ((t.component? node).toList.flatMap Component.elementRows).map fun p => ⟨node, p⟩

/-- Where only a learner was at work, no page has an outcome. -/
theorem IsDue.isPlain {t : Tree} (h : t.IsDue) : t.IsPlain := by
  intro c hc branch hb
  cases c with
  | leaf name state element =>
      obtain ⟨node, hnode⟩ := mem_components_iff.1 hc
      obtain ⟨lastTick, hdue⟩ := h.due ⟨node, []⟩
      have hstate := hdue name state element (by rw [at?, hnode, Option.bind_some, Component.item?_nil])
      rw [Component.state, hstate] at hb
      exact Element.branch?_dueState hb
  | sheet name state orientation items =>
      have hstate : state = State.ofAllDone (Component.allDone items) := (h.current _ hc).self
      rw [Component.state, hstate] at hb
      exact State.branch?_ofAllDone hb

/-- Whether the main line is filled is a matter of what lasts. -/
theorem hasFilledMainLine_withoutChanges (t : Tree) :
    t.withoutChanges.HasFilledMainLine ↔ t.HasFilledMainLine := by
  have hline : t.withoutChanges.mainLine = t.mainLine :=
    mainLine_eq_of_shape_eq (Branches.shape_map _ t.pages)
  constructor
  · intro h node hnode c hc
    apply (Component.every_isFilled_withoutChanges c).1
    apply h node (hline ▸ hnode)
    rw [component?_withoutChanges, hc]
    rfl
  · intro h node hnode d hd
    rw [component?_withoutChanges] at hd
    obtain ⟨c, hc, rfl⟩ := Option.map_eq_some_iff.1 hd
    exact (Component.every_isFilled_withoutChanges c).2 (h node (hline ▸ hnode) c hc)

theorem finishing_eq_of_withoutChanges_eq {t u : Tree} (h : t.withoutChanges = u.withoutChanges) :
    t.finishing = u.finishing := by
  have key : ∀ v : Tree, ∀ a, v.finishing a =
      (((v.at? a).map Component.withoutChanges).map Component.finishing).getD (.check true) := by
    intro v a
    rw [finishing, Option.map_map]
    congr 2
    funext c
    exact c.finishing_withoutChanges.symm
  funext a
  rw [key, key, at?_map_eq_of_withoutChanges_eq h]

theorem not_isOverride_finishing (t : Tree) (a : Address) : ¬ (t.finishing a).IsOverride := by
  rw [finishing]
  cases t.at? a with
  | none => exact not_false
  | some c => exact c.not_isOverride_finishing

theorem mem_elementAddresses {t : Tree} {a : Address} {e : Component} (h : t.at? a = some e)
    (element : e.IsElement) : a ∈ t.elementAddresses := by
  obtain ⟨c, hc, hitem⟩ := Option.bind_eq_some_iff.1 h
  obtain ⟨k, hk, -⟩ := exists_position hc
  rw [elementAddresses, List.mem_flatMap]
  refine ⟨a.node, List.mem_of_getElem? hk, ?_⟩
  rw [hc, List.mem_map]
  refine ⟨a.items, ?_, rfl⟩
  rw [Option.toList_some, List.flatMap_singleton]
  exact Component.mem_elementRows hitem element

/-- Where every element is done and the main line is filled, the chain is complete. -/
theorem isComplete_of_isFinishedAt {t : Tree} (h : t.IsDue) (ne : t.isEmpty = false)
    (finished : ∀ a, t.IsFinishedAt a) (filled : t.HasFilledMainLine) :
    t.isComplete t.chain = true := by
  rw [isComplete_iff_mainLine h.isPlain]
  refine ⟨ne, ?_⟩
  intro node hnode
  obtain ⟨path, hp, -⟩ := mem_mainLine_iff.1 hnode
  obtain ⟨c, hc⟩ := Option.isSome_iff_exists.1 (component?_isSome_iff.2 hp.lt_size)
  refine ⟨c, hc, ?_⟩
  apply Component.isDone_of_every_isFilled (every_of_component? h.current hc) (filled node hnode c hc)
  intro p e he
  exact finished ⟨node, p⟩ e (by rw [at?, hc, Option.bind_some, he])

/-- Where a chain is complete, the main line is filled. -/
theorem hasFilledMainLine_of_isComplete {t : Tree} (h : t.IsDue)
    (complete : t.isComplete t.chain = true) : t.HasFilledMainLine := by
  obtain ⟨-, hdone⟩ := (isComplete_iff_mainLine h.isPlain).1 complete
  intro node hnode c hc
  obtain ⟨d, hd, hdd⟩ := hdone node hnode
  rw [hc] at hd
  cases hd
  exact Component.every_isFilled_of_isDone (every_of_component? h.current hc) hdd

end Tree

namespace Script

/-- A call that a learner can make: a tick, an answer, a recording or making a question optional. -/
def Call.ByLearner : Call → Prop
  | .interact _ i => ¬ i.IsOverride
  | .start => False
  | .load _ => False

/-- The calls that finish the elements at addresses, one after the other. -/
def finishing (s : Script) (addresses : List Address) : List Call :=
  addresses.map fun a => .interact a (s.tree.finishing a)

theorem Made.isDue {s : Script} (made : s.Made) : s.tree.IsDue := by
  constructor
  · exact made.isCurrent
  · intro a
    refine ⟨none, ?_⟩
    intro name state element hat
    obtain ⟨c, hc, hitem⟩ := Option.bind_eq_some_iff.1 hat
    obtain ⟨hnew, hstate⟩ := (Tree.every_of_component? made.every_isInitial hc) a.items _ hitem
    rw [hstate, hnew.initialState_eq]

theorem isDue_perform {s : Script} (h : s.tree.IsDue) {call : Call} (learner : call.ByLearner) :
    (s.perform call).tree.IsDue := by
  have hmoves := moves_perform s call
  have noLoad : ∀ archive, call ≠ .load archive := by
    rintro archive rfl
    exact learner
  constructor
  · apply hmoves.isCurrent noLoad _ h.current
    rintro a state c rfl -
    exact absurd trivial learner
  · intro a
    obtain ⟨lastTick, hdue⟩ := h.due a
    refine ⟨_, hmoves.isDueAt noLoad ?_ hdue⟩
    rintro state rfl
    exact learner trivial

theorem isDue_after {s : Script} (h : s.tree.IsDue) {calls : List Call}
    (learner : ∀ call ∈ calls, call.ByLearner) : (s.after calls).tree.IsDue := by
  induction calls generalizing s with
  | nil => exact h
  | cons call calls ih =>
      rw [after_cons]
      exact ih (isDue_perform h (learner call List.mem_cons_self))
        fun c hc => learner c (List.mem_cons_of_mem _ hc)

/-- What finishes an element leaves it done, and other elements as they were. -/
theorem isFinishedAt_interact_finishing {s : Script} (h : s.tree.IsDue) {a b : Address}
    (ha : a = b ∨ s.tree.IsFinishedAt a) :
    (s.interact b (s.tree.finishing b)).1.tree.IsFinishedAt a := by
  intro e he element
  obtain ⟨e₀, he₀, hel₀⟩ := exists_element_of_interact he element
  have hstep := at?_interact_of_isElement he₀ hel₀ b (s.tree.finishing b)
  rw [he] at hstep
  by_cases hab : a = b
  · rw [if_pos hab, ← hab, Tree.finishing, he₀] at hstep
    rw [Option.some.inj hstep]
    cases e₀ with
    | sheet => exact hel₀.elim
    | leaf name state element =>
        obtain ⟨lastTick, hdue⟩ := h.due a
        exact Component.isDone_reacted_finishing (hdue _ _ _ he₀)
  · rw [if_neg hab] at hstep
    rw [Option.some.inj hstep]
    exact ha.resolve_left hab e₀ he₀ hel₀

/-- After elements were finished one after the other, they are all done, and so are those that were. -/
theorem isFinishedAt_after_finishing {s : Script} (h : s.tree.IsDue) {a : Address}
    {addresses : List Address} (ha : a ∈ addresses ∨ s.tree.IsFinishedAt a) :
    (s.after (s.finishing addresses)).tree.IsFinishedAt a := by
  induction addresses generalizing s with
  | nil => exact ha.resolve_left List.not_mem_nil
  | cons b rest ih =>
      let next := s.perform (.interact b (s.tree.finishing b))
      have hdue : next.tree.IsDue := isDue_perform h (s.tree.not_isOverride_finishing b)
      have hkeep : next.tree.finishing = s.tree.finishing :=
        Tree.finishing_eq_of_withoutChanges_eq (withoutChanges_interact s b _)
      have hsame : s.finishing rest = next.finishing rest := by
        rw [finishing, finishing, hkeep]
      show (next.after (s.finishing rest)).tree.IsFinishedAt a
      rw [hsame]
      apply ih hdue
      by_cases hrest : a ∈ rest
      · exact Or.inl hrest
      · refine Or.inr (isFinishedAt_interact_finishing h ?_)
        rcases ha with hmem | hfinished
        · exact Or.inl ((List.mem_cons.1 hmem).resolve_right hrest)
        · exact Or.inr hfinished

theorem byLearner_finishing (s : Script) (addresses : List Address) :
    ∀ call ∈ s.finishing addresses, call.ByLearner := by
  intro call hcall
  obtain ⟨a, -, rfl⟩ := List.mem_map.1 hcall
  exact s.tree.not_isOverride_finishing a

/-- From a tree as a learner may leave it, learners come to completion exactly when the main line is
filled. -/
theorem exists_complete_iff {s : Script} (h : s.tree.IsDue) (ne : s.tree.isEmpty = false) :
    (∃ more : List Call, (∀ call ∈ more, call.ByLearner) ∧ (s.after more).isComplete = true) ↔
      s.tree.HasFilledMainLine := by
  rw [← Tree.hasFilledMainLine_withoutChanges]
  constructor
  · rintro ⟨more, learner, complete⟩
    rw [← withoutChanges_after s more, Tree.hasFilledMainLine_withoutChanges]
    exact Tree.hasFilledMainLine_of_isComplete (isDue_after h learner) complete
  · intro filled
    let more := s.finishing s.tree.elementAddresses
    have learner := byLearner_finishing s s.tree.elementAddresses
    have hlasting : (s.after more).tree.withoutChanges = s.tree.withoutChanges :=
      withoutChanges_after s more
    refine ⟨more, learner, ?_⟩
    apply Tree.isComplete_of_isFinishedAt (isDue_after h learner)
    · rw [← ne]
      exact Tree.isEmpty_eq_of_shape_eq (Tree.shape_eq_of_map_eq hlasting)
    · intro a
      apply isFinishedAt_after_finishing h
      by_cases hin : a ∈ s.tree.elementAddresses
      · exact Or.inl hin
      · exact Or.inr fun e he element => absurd (Tree.mem_elementAddresses he element) hin
    · rwa [← Tree.hasFilledMainLine_withoutChanges, hlasting]

/-- There are no dead ends for a learner. Whatever a learner has done in a script as it was loaded, there
are interactions of a learner that complete it, exactly when no page of the main line is or contains a
sheet without items; and the chain is an initial part of the main line. -/
theorem no_dead_ends {text : String} {s : Script} (loaded : Source.script text = .ok s)
    {calls : List Call} (learner : ∀ call ∈ calls, call.ByLearner) :
    ((∃ more : List Call, (∀ call ∈ more, call.ByLearner) ∧
        ((s.after calls).after more).isComplete = true) ↔
      ∀ node ∈ s.tree.mainLine, ∀ c, s.tree.component? node = some c →
        c.Every Component.IsFilled) ∧
    (s.after calls).chain <+: s.tree.mainLine := by
  have hdue := isDue_after (Made.loaded loaded).isDue learner
  have hlasting := withoutChanges_after s calls
  have hshape := Tree.shape_eq_of_map_eq hlasting
  constructor
  · rw [exists_complete_iff hdue, ← Tree.hasFilledMainLine_withoutChanges, hlasting,
      Tree.hasFilledMainLine_withoutChanges, Tree.HasFilledMainLine]
    rw [Tree.isEmpty_eq_of_shape_eq hshape]
    exact Source.isEmpty_of_script loaded
  · rw [← Tree.mainLine_eq_of_shape_eq hshape]
    exact Tree.chain_isPrefix_mainLine hdue.isPlain

theorem no_dead_ends_branched :
    let s := (Script.new "T" Source.branchedTree).after [.interact ⟨2, [0]⟩ (.answer "0.4 s")]
    (∃ more : List Call, (∀ call ∈ more, call.ByLearner) ∧ (s.after more).isComplete = true) ∧
      s.chain <+: [0, 2] := by
  have learner : ∀ call ∈ [Call.interact ⟨2, [0]⟩ (.answer "0.4 s")], call.ByLearner := by
    intro call hcall
    rw [List.mem_singleton.1 hcall]
    exact not_false
  obtain ⟨hiff, hchain⟩ := no_dead_ends Source.script_branchedText learner
  refine ⟨hiff.2 ?_, hchain⟩
  intro node hnode c hc
  have hnode : node = 0 ∨ node = 2 := by simpa using (show node ∈ [0, 2] from hnode)
  rcases hnode with rfl | rfl
  · cases hc
    exact Component.every_leaf.2 trivial
  · cases hc
    rw [Component.ofItems, Component.every_sheet]
    refine ⟨List.cons_ne_nil _ _, ?_⟩
    intro d hd
    rw [List.mem_singleton.1 hd]
    exact Component.every_leaf.2 trivial

end Script

end GuidedLab
