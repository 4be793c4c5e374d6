import GuidedLab.Proofs.Component.Account
import GuidedLab.Proofs.Tree.Chain

/-!
# Changes that account for the states of a tree

What an interaction reports of a tree is what it reports of one page's component, with the page put
before every address. So it accounts for the states of the tree as it does for those of the component
(`accounts_respond?`). An interaction that reports nothing has left every state as it was, and with it
the chain (`chain_eq_of_respond?_nil`).
-/

namespace GuidedLab.Tree

/-- The states of the components. -/
def states (t : Tree) (a : Address) : Option State :=
  (t.at? a).map Component.state

/-- A change as an address and a state. -/
def Change.entry (change : Change) : Address × State := (change.address, change.state)

theorem states_eq_bind (t : Tree) (a : Address) :
    t.states a = (t.component? a.node).bind fun c => c.states a.items := by
  rw [states, at?, Option.map_bind]
  rfl

/-- What accounts for the states of a component accounts for those of the tree around it. -/
theorem accounts_set {t : Tree} {node : Nat} {c d : Component} {changes : List ItemChange}
    (found : t.component? node = some c)
    (h : Accounts c.states (changes.map Component.entry) d.states) :
    Accounts t.states ((changes.map (Change.ofItem node)).map Change.entry)
      (t.set node d).states := by
  have hmap : (changes.map (Change.ofItem node)).map Change.entry =
      (changes.map Component.entry).map fun change => (⟨node, change.1⟩, change.2) := by
    rw [List.map_map, List.map_map]
    rfl
  rw [hmap]
  refine h.extend (f := fun p => (⟨node, p⟩ : Address)) ?_ ?_ ?_ ?_
  · intro p q hpq
    injection hpq
  · intro p
    rw [states_eq_bind, found, Option.bind_some]
  · intro p
    rw [states_eq_bind, component?_set_self found, Option.bind_some]
  · intro a ha
    have hne : a.node ≠ node := by
      rintro rfl
      exact ha a.items rfl
    rw [states_eq_bind, states_eq_bind, component?_set_of_ne hne]

theorem accounts_respond? {t u : Tree} {a : Address} {i : Interaction} {changes : List Change}
    (h : t.respond? a i = .ok (u, changes)) :
    Accounts t.states (changes.map Change.entry) u.states := by
  obtain ⟨c, d, itemChanges, hc, hr, rfl, rfl⟩ := respond?_eq_ok_iff.1 h
  exact accounts_set hc (Component.respond?_eq_ok_iff.1 hr).accounts

theorem shape_of_respond? {t u : Tree} {a : Address} {i : Interaction} {changes : List Change}
    (h : t.respond? a i = .ok (u, changes)) : u.pages.shape = t.pages.shape := by
  obtain ⟨c, d, itemChanges, -, -, rfl, -⟩ := respond?_eq_ok_iff.1 h
  exact shape_set t a.node d

/-- Where nothing is reported, the chain is as it was. -/
theorem chain_eq_of_respond?_nil {t u : Tree} {a : Address} {i : Interaction}
    (h : t.respond? a i = .ok (u, [])) : u.chain = t.chain := by
  have hstates : t.states = u.states := (accounts_respond? h).foldl_eq
  apply chain_eq_of_states (shape_of_respond? h)
  intro node
  have hnode : ∀ v : Tree, (v.component? node).map Component.state = v.states (.ofNode node) := by
    intro v
    rw [states, at?, Address.ofNode]
    cases v.component? node with
    | none => rfl
    | some c => rw [Option.bind_some, Component.item?_nil]
  rw [hnode, hnode, hstates]

end GuidedLab.Tree
