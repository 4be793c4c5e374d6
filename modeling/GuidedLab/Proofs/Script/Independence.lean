import GuidedLab.Proofs.Component.Elements
import GuidedLab.Proofs.Component.Refusal
import GuidedLab.Proofs.Script.Completion

/-!
# Interactions with different elements

Two interactions with different elements can be made in either order (`interactions_commute`). On the way
the sheets around both elements go through other states in the one order than in the other, and are
brought up to date another number of times. So the two ways are not compared step by step. At the end
of both the sheets are current and the elements are the same ones, and a tree of current sheets is
determined by its elements (`Tree.eq_of_elements_eq`).
-/

namespace GuidedLab

namespace Tree

/-- A tree of current sheets is what lasts in it together with its elements. -/
theorem eq_of_elements_eq {t u : Tree} (ht : t.IsCurrent) (hu : u.IsCurrent)
    (same : t.withoutChanges = u.withoutChanges)
    (elements : ∀ a e, t.at? a = some e → e.IsElement → u.at? a = some e) : t = u := by
  apply eq_of_component?_eq (shape_eq_of_map_eq same)
  intro node
  have hmap : (t.component? node).map Component.withoutChanges =
      (u.component? node).map Component.withoutChanges := by
    rw [← component?_withoutChanges, ← component?_withoutChanges, same]
  cases hc : t.component? node with
  | none =>
      rw [hc] at hmap
      exact (Option.map_eq_none_iff.1 hmap.symm).symm
  | some c =>
      rw [hc, Option.map_some] at hmap
      obtain ⟨d, hd, hcd⟩ := Option.map_eq_some_iff.1 hmap.symm
      have hall : c = d := by
        apply Component.eq_of_elements_eq (every_of_component? ht hc) (every_of_component? hu hd)
          hcd.symm
        intro p e he hel
        have hat := elements ⟨node, p⟩ e
        rw [at?, at?, hc, hd] at hat
        exact hat he hel
      rw [hd, hall]

end Tree

namespace Script

variable {s : Script} {a b : Address} {c d e : Component} {i j : Interaction}

/-- An answer without what it reports: an interaction is accepted, or refused with a fault. -/
def outcome {α : Type} (r : Except Fault α) : Except Fault Unit := r.map fun _ => ()

theorem outcome_interact (s : Script) (a : Address) (i : Interaction) :
    outcome (s.interact a i).2 = outcome (s.tree.respond? a i) := by
  rw [interact]
  cases s.tree.respond? a i <;> rfl

/-- Whether an interaction with a component is accepted is a matter of the component. -/
theorem outcome_interact_of_at? (found : s.tree.at? a = some c) :
    outcome (s.interact a i).2 = outcome (c.react? i) := by
  obtain ⟨page, hpage, hc⟩ := Option.bind_eq_some_iff.1 found
  rw [outcome_interact, Tree.respond?, hpage]
  cases hr : c.react? i with
  | error f =>
      simp only [Component.respond?_of_react?_error hc hr]
      rfl
  | ok c' =>
      obtain ⟨page', changes, h⟩ := Component.exists_responds hc (Component.react?_eq_ok_iff.1 hr)
      simp only [Component.respond?_eq_ok_iff.2 h]
      rfl

/-- After an interaction an element is as it was, or has reacted if it was addressed. -/
theorem at?_interact_of_isElement (found : s.tree.at? b = some e) (element : e.IsElement)
    (a : Address) (i : Interaction) :
    (s.interact a i).1.tree.at? b = some (if b = a then e.reacted i else e) := by
  rw [interact]
  cases hr : s.tree.respond? a i with
  | error f =>
      show s.tree.at? b = _
      rw [found]
      by_cases hb : b = a
      · subst hb
        -- the element itself refuses, for what it accepts is accepted around it
        have hself := outcome_interact_of_at? (i := i) found
        rw [outcome_interact, hr] at hself
        cases he : e.react? i with
        | error g => rw [if_pos rfl, Component.reacted_of_error he]
        | ok e' =>
            rw [he] at hself
            cases hself
      · rw [if_neg hb]
  | ok r =>
      obtain ⟨page, page', changes, hpage, hresponds, htree, -⟩ :=
        Tree.respond?_eq_ok_iff.1 (hr : s.tree.respond? a i = .ok (r.1, r.2))
      have hresponds := Component.respond?_eq_ok_iff.1 hresponds
      show r.1.at? b = _
      rw [htree]
      by_cases hb : b = a
      · subst hb
        obtain ⟨c, c', hc, hreacts, hc'⟩ := hresponds.target
        rw [Tree.at?, hpage, Option.bind_some, hc] at found
        cases found
        rw [Tree.at?_set_self hpage, hc', if_pos rfl, Component.reacted_of_reacts hreacts]
      · rw [if_neg hb]
        exact (Tree.at?_set_eq_some_iff hpage hresponds hb element).2 found

theorem withoutChanges_interact (s : Script) (a : Address) (i : Interaction) :
    (s.interact a i).1.tree.withoutChanges = s.tree.withoutChanges :=
  (moves_perform s (.interact a i)).withoutChanges_eq

theorem isCurrent_interact (h : s.tree.IsCurrent) (found : s.tree.at? a = some c)
    (element : c.IsElement) (i : Interaction) : (s.interact a i).1.tree.IsCurrent := by
  apply (moves_perform s (.interact a i)).isCurrent nofun _ h
  rintro b state d ⟨⟩ hd
  rw [found] at hd
  cases hd
  exact element

/-- What was an element before an interaction is one after it, and the other way round. -/
theorem exists_element_of_interact (found : (s.interact a i).1.tree.at? b = some e)
    (element : e.IsElement) : ∃ e', s.tree.at? b = some e' ∧ e'.IsElement := by
  have hmap := Tree.at?_map_eq_of_withoutChanges_eq (withoutChanges_interact s a i) b
  rw [found, Option.map_some] at hmap
  obtain ⟨e', he', hlasting⟩ := Option.map_eq_some_iff.1 hmap.symm
  exact ⟨e', he', (Component.isElement_iff_of_withoutChanges_eq hlasting).2 element⟩

/-- Where sheets are current, interactions with two elements lead to the same tree in either order. -/
theorem tree_interact_comm (h : s.tree.IsCurrent) (ne : a ≠ b) (hc : s.tree.at? a = some c)
    (hcel : c.IsElement) (hd : s.tree.at? b = some d) (hdel : d.IsElement) (i j : Interaction) :
    ((s.interact a i).1.interact b j).1.tree = ((s.interact b j).1.interact a i).1.tree := by
  have hd' : (s.interact a i).1.tree.at? b = some d := by
    rw [at?_interact_of_isElement hd hdel, if_neg ne.symm]
  have hc' : (s.interact b j).1.tree.at? a = some c := by
    rw [at?_interact_of_isElement hc hcel, if_neg ne]
  apply Tree.eq_of_elements_eq
  · exact isCurrent_interact (isCurrent_interact h hc hcel i) hd' hdel j
  · exact isCurrent_interact (isCurrent_interact h hd hdel j) hc' hcel i
  · rw [withoutChanges_interact, withoutChanges_interact, withoutChanges_interact,
      withoutChanges_interact]
  · intro x e he hel
    obtain ⟨e₁, he₁, hel₁⟩ := exists_element_of_interact he hel
    obtain ⟨e₀, he₀, hel₀⟩ := exists_element_of_interact he₁ hel₁
    have hkeep : ∀ k : Interaction, ∀ y : Address,
        (if x = y then e₀.reacted k else e₀).IsElement := by
      intro k y
      split
      · exact Component.isElement_reacted hel₀
      · exact hel₀
    have hfirst := at?_interact_of_isElement (at?_interact_of_isElement he₀ hel₀ a i) (hkeep i a) b j
    have hsecond := at?_interact_of_isElement (at?_interact_of_isElement he₀ hel₀ b j) (hkeep j b) a i
    rw [he] at hfirst
    rw [hsecond, hfirst]
    by_cases hxa : x = a
    · rw [if_pos hxa, if_neg fun hxb => ne (hxa.symm.trans hxb),
        if_neg fun hxb => ne (hxa.symm.trans hxb), if_pos hxa]
    · rw [if_neg hxa, if_neg hxa]

/-- A script as it is made has current sheets. -/
theorem Made.isCurrent (made : s.Made) : s.tree.IsCurrent :=
  fun c hc => (made.every_isInitial c hc).mono fun _ => Component.IsInitial.isCurrent

/-- After a run of a script as it is made in which no sheet is overridden, interactions with two different
elements can be made in either order: the tree, the chain and whether it is complete are the same in the
end, and each of the two is accepted or refused as it is in the other order. -/
theorem interactions_commute (made : s.Made) {calls : List Call}
    (noLoad : ∀ archive, .load archive ∉ calls)
    (gentle : ∀ a state c, .interact a (.override state) ∈ calls → s.tree.at? a = some c →
      c.IsElement) (ne : a ≠ b) (hc : (s.after calls).tree.at? a = some c) (hcel : c.IsElement)
    (hd : (s.after calls).tree.at? b = some d) (hdel : d.IsElement) (i j : Interaction) :
    let t := s.after calls
    let ab := (t.interact a i).1.interact b j
    let ba := (t.interact b j).1.interact a i
    ab.1.tree = ba.1.tree ∧ ab.1.chain = ba.1.chain ∧ ab.1.isComplete = ba.1.isComplete ∧
      outcome (t.interact a i).2 = outcome ba.2 ∧ outcome (t.interact b j).2 = outcome ab.2 := by
  intro t ab ba
  have hcurrent : t.tree.IsCurrent := isCurrent_after noLoad gentle made.isCurrent
  have htree : ab.1.tree = ba.1.tree := tree_interact_comm hcurrent ne hc hcel hd hdel i j
  have hchain : ab.1.chain = ba.1.chain := congrArg Tree.chain htree
  refine ⟨htree, hchain, ?_, ?_, ?_⟩
  · rw [isComplete, isComplete, hchain, htree]
  · have hlater : (t.interact b j).1.tree.at? a = some c := by
      rw [at?_interact_of_isElement hc hcel, if_neg ne]
    rw [outcome_interact_of_at? hc, outcome_interact_of_at? hlater]
  · have hlater : (t.interact a i).1.tree.at? b = some d := by
      rw [at?_interact_of_isElement hd hdel, if_neg ne.symm]
    rw [outcome_interact_of_at? hd, outcome_interact_of_at? hlater]

/-- A run after which the page of `sample` is done. -/
def doneRun : List Call :=
  [.interact ⟨0, [0]⟩ (.check true), .interact ⟨0, [1]⟩ (.answer "0.4 s")]

theorem interactions_commute_doneRun :
    let t := sample.after doneRun
    let unticked := t.interact ⟨0, [0]⟩ (.check false)
    let unanswered := t.interact ⟨0, [1]⟩ (.answer "")
    (unticked.1.interact ⟨0, [1]⟩ (.answer "")).1.tree =
        (unanswered.1.interact ⟨0, [0]⟩ (.check false)).1.tree ∧
      outcome (unanswered.1.interact ⟨0, [0]⟩ (.check false)).2 = .ok () ∧
      unticked.1.tree ≠ unanswered.1.tree := by
  have noLoad : ∀ archive, Call.load archive ∉ doneRun := by
    intro archive h
    simp [doneRun] at h
  have gentle : ∀ a state c, Call.interact a (.override state) ∈ doneRun →
      sample.tree.at? a = some c → c.IsElement := by
    intro a state c h
    simp [doneRun] at h
  obtain ⟨htree, -, -, hfirst, -⟩ := interactions_commute made_sample noLoad gentle
    (a := ⟨0, [0]⟩) (b := ⟨0, [1]⟩) (by decide) rfl trivial rfl trivial (.check false) (.answer "")
  refine ⟨htree, ?_, by decide⟩
  rw [← hfirst]
  rfl

end Script

end GuidedLab
