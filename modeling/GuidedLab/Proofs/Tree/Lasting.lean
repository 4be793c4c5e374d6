import GuidedLab.Proofs.Tree.Outline

/-!
# What lasts in a tree

What lasts in the components of a tree lasts in the tree: `withoutProgress` and `withoutChanges`
forget the same as they do of a component, on every page, and keep the pages themselves with their
numbers and branches. So trees that agree in what no interaction touches have the same pages, the
same outline and parts of the same kind at every address.
-/

namespace GuidedLab.Tree

/-- What a snapshot of the tree does not hold. -/
def withoutProgress (t : Tree) : Tree := t.map fun _ c => c.withoutProgress

/-- What no interaction touches. -/
def withoutChanges (t : Tree) : Tree := t.map fun _ c => c.withoutChanges

/-- Everything that is recorded has a property. -/
def Records (P : RawPath → Prop) (t : Tree) : Prop :=
  ∀ c ∈ t.components, c.Every (Component.Records P)

/-- Everything that is recorded lies below the run. -/
def IsContained (t : Tree) : Prop :=
  ∀ c ∈ t.components, c.Every Component.IsContained

theorem outline_withoutChanges (t : Tree) : t.withoutChanges.outline = t.outline :=
  outline_map (fun _ c => Component.outline_erased Element.label_withoutChanges c) t

theorem outline_eq_of_withoutChanges_eq {t u : Tree} (h : t.withoutChanges = u.withoutChanges) :
    t.outline = u.outline := by
  rw [← outline_withoutChanges t, ← outline_withoutChanges u, h]

theorem shape_eq_of_map_eq {f : Nat → Component → Component} {t u : Tree} (h : t.map f = u.map f) :
    t.pages.shape = u.pages.shape := by
  rw [← Branches.shape_map f t.pages, ← Branches.shape_map f u.pages]
  exact congrArg (fun v => v.pages.shape) h

/-- What is the same of two trees is the same of their components. -/
theorem components_map_eq {g : Component → Component} {t u : Tree}
    (h : (t.map fun _ c => g c) = u.map fun _ c => g c) :
    t.components.map g = u.components.map g := by
  rw [← components_map, ← components_map, h]

/-- Trees of one shape agree in what their components agree in. -/
theorem map_eq_of_components {g : Component → Component} {t u : Tree}
    (shape : t.pages.shape = u.pages.shape) (h : t.components.map g = u.components.map g) :
    (t.map fun _ c => g c) = u.map fun _ c => g c := by
  apply ext
  apply Branches.eq_of_values_eq
  · rw [map, map, Branches.shape_map, Branches.shape_map, shape]
  · rw [map, map, Branches.values_map, Branches.values_map]
    exact h

theorem withoutChanges_withoutProgress (t : Tree) :
    t.withoutProgress.withoutChanges = t.withoutChanges := by
  rw [withoutProgress, withoutChanges, map_map, withoutChanges]
  congr 1
  funext _ c
  exact c.withoutChanges_withoutProgress

theorem withoutChanges_eq_of_withoutProgress_eq {t u : Tree}
    (h : t.withoutProgress = u.withoutProgress) : t.withoutChanges = u.withoutChanges := by
  rw [← withoutChanges_withoutProgress t, ← withoutChanges_withoutProgress u, h]

theorem component?_withoutChanges (t : Tree) (node : Nat) :
    t.withoutChanges.component? node = (t.component? node).map Component.withoutChanges :=
  component?_map _ t node

/-- What lasts of a tree has at every address what lasts there. -/
theorem at?_withoutChanges (t : Tree) (a : Address) :
    t.withoutChanges.at? a = (t.at? a).map Component.withoutChanges := by
  rw [at?, at?, withoutChanges, component?_map]
  cases t.component? a.node with
  | none => rfl
  | some c => exact Component.item?_erased _ c a.items

theorem at?_map_eq_of_withoutChanges_eq {t u : Tree} (h : t.withoutChanges = u.withoutChanges)
    (a : Address) :
    (t.at? a).map Component.withoutChanges = (u.at? a).map Component.withoutChanges := by
  rw [← at?_withoutChanges, ← at?_withoutChanges, h]

/-- A component that is set in the place of another one that it agrees with. -/
theorem map_set_of_eq {g : Component → Component} {t : Tree} {node : Nat} {c d : Component}
    (found : t.component? node = some c) (h : g d = g c) :
    ((t.set node d).map fun _ c => g c) = t.map fun _ c => g c := by
  apply eq_of_component?_eq
  · rw [map, map, Branches.shape_map, Branches.shape_map]
    exact shape_set t node d
  · intro n
    rw [component?_map, component?_map]
    by_cases hn : n = node
    · subst hn
      rw [component?_set_self found, found, Option.map_some, Option.map_some, h]
    · rw [component?_set_of_ne hn]

theorem withoutChanges_set {t : Tree} {node : Nat} {c d : Component}
    (found : t.component? node = some c) (h : d.withoutChanges = c.withoutChanges) :
    (t.set node d).withoutChanges = t.withoutChanges :=
  map_set_of_eq found h

theorem withoutProgress_set {t : Tree} {node : Nat} {c d : Component}
    (found : t.component? node = some c) (h : d.withoutProgress = c.withoutProgress) :
    (t.set node d).withoutProgress = t.withoutProgress :=
  map_set_of_eq found h

/-- Where the same lasts of trees, each component of one has a component of the other that the same lasts
of. -/
theorem exists_mem_components_of_withoutChanges_eq {t u : Tree}
    (h : t.withoutChanges = u.withoutChanges) {c : Component} (hc : c ∈ t.components) :
    ∃ d ∈ u.components, c.withoutChanges = d.withoutChanges := by
  obtain ⟨k, hk⟩ := List.getElem?_of_mem hc
  obtain ⟨d, hd, hcd⟩ := Lists.exists_getElem?_of_map_eq (components_map_eq h) hk
  exact ⟨d, List.mem_of_getElem? hd, hcd⟩

theorem mem_components_set {t : Tree} {node : Nat} {c d : Component}
    (h : c ∈ (t.set node d).components) : c = d ∨ c ∈ t.components := by
  obtain ⟨n, hn⟩ := mem_components_iff.1 h
  by_cases hne : n = node
  · subst hne
    rw [set, component?_map] at hn
    obtain ⟨e, -, he⟩ := Option.map_eq_some_iff.1 hn
    rw [if_pos rfl] at he
    exact Or.inl he.symm
  · rw [component?_set_of_ne hne] at hn
    exact Or.inr (mem_components_iff.2 ⟨n, hn⟩)

theorem records_set {P : RawPath → Prop} {t : Tree} (h : t.Records P) (node : Nat) {d : Component}
    (hd : d.Every (Component.Records P)) : (t.set node d).Records P := by
  intro c hc
  rcases mem_components_set hc with rfl | hc
  · exact hd
  · exact h c hc

end GuidedLab.Tree
