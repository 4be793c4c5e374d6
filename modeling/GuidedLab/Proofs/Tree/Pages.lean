import GuidedLab.Tree.Snapshot
import GuidedLab.Proofs.Success

/-!
# The pages of a tree

A page is met in two ways, by its number and by its position in pre-order. Where no number comes
twice the two agree: the value at a position is the value under the number at that position
(`getElem?_values`). Pages are determined by their shape and their values, listed in pre-order
(`eq_of_values_eq`) or looked up by number (`Tree.eq_of_component?_eq`). Traversing pages is working
on their values at their positions (`exists_traverse`, `getElem?_values_of_traverse`).
-/

namespace GuidedLab

namespace Branches

variable {α β : Type}

@[simp] theorem values_nil : (nil : Branches α).values = [] := rfl

theorem values_cons (b : UInt32) (n : Nat) (v : α) (after others : Branches α) :
    (cons b n v after others).values = v :: (after.values ++ others.values) := by
  rw [values, preorder_cons, List.map_cons, List.map_append]
  rfl

@[simp] theorem length_values (t : Branches α) : t.values.length = t.size := by
  rw [values, List.length_map, length_preorder]

theorem shape_cons (b : UInt32) (n : Nat) (v : α) (after others : Branches α) :
    (cons b n v after others).shape = cons b n () after.shape others.shape := rfl

theorem nodes_eq_of_shape_eq {t : Branches α} {u : Branches β} (h : t.shape = u.shape) :
    t.nodes = u.nodes := by
  rw [← nodes_map (fun _ _ => ()) t, ← nodes_map (fun _ _ => ()) u]
  exact congrArg nodes h

theorem size_eq_of_shape_eq {t : Branches α} {u : Branches β} (h : t.shape = u.shape) :
    t.size = u.size := by
  rw [← length_nodes, ← length_nodes, nodes_eq_of_shape_eq h]

theorem isEmpty_shape (t : Branches α) : t.shape.isEmpty = t.isEmpty := by
  cases t <;> rfl

theorem map_map {γ : Type} (f : Nat → α → β) (g : Nat → β → γ) (t : Branches α) :
    (t.map f).map g = t.map fun n v => g n (f n v) := by
  induction t with
  | nil => rfl
  | cons b n v after others iha iho => rw [map, map, map, iha, iho]

theorem preorder_map (f : Nat → α → β) (t : Branches α) :
    (t.map f).preorder = t.preorder.map fun page => (page.1, f page.1 page.2) := by
  induction t with
  | nil => rfl
  | cons b n v after others iha iho =>
      rw [map, preorder_cons, preorder_cons, iha, iho, List.map_cons, List.map_append]

theorem values_map (g : α → β) (t : Branches α) :
    (t.map fun _ v => g v).values = t.values.map g := by
  rw [values, preorder_map, values, List.map_map, List.map_map]
  rfl

theorem find?_map (f : Nat → α → β) (node : Nat) (t : Branches α) :
    (t.map f).find? node = (t.find? node).map fun page => (f node page.1, page.2.map f) := by
  induction t with
  | nil => rfl
  | cons b n v after others iha iho =>
      rw [map, find?, find?]
      by_cases h : n = node
      · rw [if_pos h, if_pos h, Option.map_some, h]
      · rw [if_neg h, if_neg h, iha, iho, Option.map_or]

theorem mem_values_place {b : UInt32} {n : Nat} {v x : α} {after t : Branches α}
    (h : x ∈ (place b n v after t).values) : x = v ∨ x ∈ after.values ∨ x ∈ t.values := by
  have hcons : ∀ {u : Branches α}, x ∈ (cons b n v after u).values →
      x = v ∨ x ∈ after.values ∨ x ∈ u.values := by
    intro u hu
    rwa [values_cons, List.mem_cons, List.mem_append] at hu
  induction t with
  | nil => exact hcons h
  | cons c m w follow others _ iho =>
      rw [place] at h
      split at h
      · exact hcons h
      · rw [values_cons, List.mem_cons, List.mem_append] at h ⊢
        rcases h with h | h | h
        · exact Or.inr (Or.inr (Or.inl h))
        · exact Or.inr (Or.inr (Or.inr (Or.inl h)))
        · rcases iho h with h | h | h
          · exact Or.inl h
          · exact Or.inr (Or.inl h)
          · exact Or.inr (Or.inr (Or.inr (Or.inr h)))

theorem mem_values_union {t u : Branches α} {x : α} (h : x ∈ (t.union u).values) :
    x ∈ t.values ∨ x ∈ u.values := by
  induction t generalizing u with
  | nil => exact Or.inr h
  | cons b n v after others _ iho =>
      rw [union] at h
      rw [values_cons, List.mem_cons, List.mem_append]
      rcases iho h with h | h
      · exact Or.inl (Or.inr (Or.inr h))
      · rcases mem_values_place h with h | h | h
        · exact Or.inl (Or.inl h)
        · exact Or.inl (Or.inr (Or.inl h))
        · exact Or.inr h

/-- Pages are their shape and their values in pre-order. -/
theorem eq_of_values_eq {t u : Branches α} (shape : t.shape = u.shape)
    (values : t.values = u.values) : t = u := by
  induction t generalizing u with
  | nil =>
      cases u with
      | nil => rfl
      | cons => cases shape
  | cons b n v after others iha iho =>
      cases u with
      | nil => cases shape
      | cons b' n' v' after' others' =>
          rw [shape_cons, shape_cons] at shape
          injection shape with hb hn _ hafter hothers
          rw [values_cons, values_cons] at values
          injection values with hv hvalues
          have hlen : after.values.length = after'.values.length := by
            rw [length_values, length_values, size_eq_of_shape_eq hafter]
          obtain ⟨hva, hvo⟩ := List.append_inj hvalues hlen
          rw [hb, hn, hv, iha hafter hva, iho hothers hvo]

theorem mem_nodes_of_find? {t : Branches α} {node : Nat} {page : α × Branches α}
    (h : t.find? node = some page) : node ∈ t.nodes :=
  find?_isSome_iff.1 (by rw [h]; rfl)

/-- Where numbers are unique, a page after another one is found past it. -/
theorem find?_cons_of_after {b : UInt32} {n : Nat} {v : α} {after others : Branches α}
    (hd : (cons b n v after others).nodes.Nodup) {node : Nat} {page : α × Branches α}
    (h : after.find? node = some page) : (cons b n v after others).find? node = some page := by
  rw [nodes_cons] at hd
  have hne : n ≠ node := by
    rintro rfl
    exact (List.nodup_cons.1 hd).1 (List.mem_append_left _ (mem_nodes_of_find? h))
  rw [find?, if_neg hne, h, Option.some_or]

/-- Where numbers are unique, a page beside another one is found past it and what follows it. -/
theorem find?_cons_of_others {b : UInt32} {n : Nat} {v : α} {after others : Branches α}
    (hd : (cons b n v after others).nodes.Nodup) {node : Nat} {page : α × Branches α}
    (h : others.find? node = some page) : (cons b n v after others).find? node = some page := by
  rw [nodes_cons] at hd
  obtain ⟨hn, hd⟩ := List.nodup_cons.1 hd
  have hin := mem_nodes_of_find? h
  have hne : n ≠ node := by
    rintro rfl
    exact hn (List.mem_append_right _ hin)
  have hnone : after.find? node = none := by
    rw [find?_eq_none_iff]
    intro ha
    exact (List.nodup_append.1 hd).2.2 _ ha _ hin rfl
  rw [find?, if_neg hne, hnone, Option.none_or, h]

theorem find?_eq_some_of_mem {t : Branches α} (hd : t.nodes.Nodup) {page : Nat × α}
    (h : page ∈ t.preorder) : ∃ after, t.find? page.1 = some (page.2, after) := by
  induction t with
  | nil => cases h
  | cons b n v after others iha iho =>
      have hd' := hd
      rw [nodes_cons] at hd'
      obtain ⟨hda, hdo, -⟩ := List.nodup_append.1 (List.nodup_cons.1 hd').2
      rw [preorder_cons] at h
      rcases List.mem_cons.1 h with rfl | h
      · exact ⟨after, by rw [find?, if_pos rfl]⟩
      · rcases List.mem_append.1 h with h | h
        · obtain ⟨follow, hf⟩ := iha hda h
          exact ⟨follow, find?_cons_of_after hd hf⟩
        · obtain ⟨follow, hf⟩ := iho hdo h
          exact ⟨follow, find?_cons_of_others hd hf⟩

/-- Where numbers are unique, the value at a position is the one under the number there. -/
theorem getElem?_values {t : Branches α} (hd : t.nodes.Nodup) (k : Nat) :
    t.values[k]? = t.nodes[k]?.bind fun node => (t.find? node).map Prod.fst := by
  rw [values, nodes, List.getElem?_map, List.getElem?_map]
  cases hk : t.preorder[k]? with
  | none => rfl
  | some page =>
      obtain ⟨after, hf⟩ := find?_eq_some_of_mem hd (List.mem_of_getElem? hk)
      rw [Option.map_some, Option.map_some, Option.bind_some, hf, Option.map_some]

theorem traverse_cons {ε : Type} (f : Nat → α → Except ε β) (p : Nat) (b : UInt32) (n : Nat) (v : α)
    (after others : Branches α) :
    (cons b n v after others).traverse f p = (f p v).bind fun w =>
      (after.traverse f (p + 1)).bind fun after' =>
        (others.traverse f (p + 1 + after.size)).bind fun others' =>
          .ok (cons b n w after' others') := rfl

/-- Positions of a page sequence: the page itself, those after it and those beside it. -/
theorem getElem?_values_cons (b : UInt32) (n : Nat) (v : α) (after others : Branches α) (k : Nat) :
    (cons b n v after others).values[k]? =
      if k = 0 then some v
      else if k < 1 + after.size then after.values[k - 1]?
      else others.values[k - (1 + after.size)]? := by
  rw [values_cons]
  cases k with
  | zero => rfl
  | succ k =>
      rw [List.getElem?_cons_succ, if_neg (Nat.succ_ne_zero k), List.getElem?_append, length_values]
      by_cases h : k < after.size
      · rw [if_pos h, if_pos (by omega), Nat.add_sub_cancel]
      · rw [if_neg h, if_neg (by omega)]
        congr 1
        omega

/-- If every value can be worked on at its position, the traversal succeeds. -/
theorem exists_traverse {ε : Type} {f : Nat → α → Except ε β} {p : Nat} {t : Branches α}
    (h : ∀ k v, t.values[k]? = some v → ∃ w, f (p + k) v = .ok w) :
    ∃ u, t.traverse f p = .ok u := by
  induction t generalizing p with
  | nil => exact ⟨.nil, rfl⟩
  | cons b n v after others iha iho =>
      obtain ⟨w, hw⟩ := h 0 v (by rw [getElem?_values_cons, if_pos rfl])
      obtain ⟨after', ha⟩ : ∃ u, after.traverse f (p + 1) = .ok u := by
        apply iha
        intro k v' hk
        have hlt : k < after.size := length_values after ▸ (List.getElem?_eq_some_iff.1 hk).1
        rw [Nat.add_assoc]
        apply h
        rw [getElem?_values_cons, if_neg (by omega), if_pos (by omega), Nat.add_sub_cancel_left, hk]
      obtain ⟨others', ho⟩ : ∃ u, others.traverse f (p + 1 + after.size) = .ok u := by
        apply iho
        intro k v' hk
        rw [Nat.add_assoc p, Nat.add_assoc p]
        apply h
        rw [getElem?_values_cons, if_neg (by omega), if_neg (by omega), Nat.add_sub_cancel_left, hk]
      refine ⟨cons b n w after' others', ?_⟩
      rw [traverse_cons, ← Nat.add_zero p, hw, Nat.add_zero, ha, ho]
      rfl

/-- What a traversal has made of the value at a position. -/
theorem getElem?_values_of_traverse {ε : Type} {f : Nat → α → Except ε β} {p : Nat}
    {t : Branches α} {u : Branches β} (h : t.traverse f p = .ok u) {k : Nat} {v : α}
    (hk : t.values[k]? = some v) : ∃ w, f (p + k) v = .ok w ∧ u.values[k]? = some w := by
  induction t generalizing p u k with
  | nil => cases hk
  | cons b n v' after others iha iho =>
      rw [traverse_cons] at h
      obtain ⟨w, hw, h⟩ := Success.bind_eq_ok_iff.1 h
      obtain ⟨after', ha, h⟩ := Success.bind_eq_ok_iff.1 h
      obtain ⟨others', ho, h⟩ := Success.bind_eq_ok_iff.1 h
      cases h
      have hsize : after'.size = after.size := size_eq_of_shape_eq (shape_of_traverse ha)
      rw [getElem?_values_cons] at hk ⊢
      rw [hsize]
      by_cases h0 : k = 0
      · subst h0
        rw [if_pos rfl] at hk ⊢
        cases hk
        exact ⟨w, hw, rfl⟩
      · rw [if_neg h0] at hk ⊢
        by_cases hlt : k < 1 + after.size
        · rw [if_pos hlt] at hk ⊢
          obtain ⟨w', hw', hu⟩ := iha ha hk
          refine ⟨w', ?_, hu⟩
          rwa [Nat.add_assoc, Nat.add_sub_cancel' (by omega)] at hw'
        · rw [if_neg hlt] at hk ⊢
          obtain ⟨w', hw', hu⟩ := iho ho hk
          refine ⟨w', ?_, hu⟩
          rwa [Nat.add_assoc p, Nat.add_assoc p, Nat.add_sub_cancel' (by omega)] at hw'

end Branches

namespace Tree

theorem isEmpty_eq_false_iff {t : Tree} : t.isEmpty = false ↔ t.size ≠ 0 := by
  rw [isEmpty, size]
  cases t.pages with
  | nil => simp [Branches.isEmpty, Branches.size]
  | cons b n c after others =>
      rw [Branches.isEmpty, Branches.size]
      exact ⟨fun _ => by omega, fun _ => rfl⟩

theorem isEmpty_eq_of_shape_eq {t u : Tree} (h : t.pages.shape = u.pages.shape) :
    t.isEmpty = u.isEmpty := by
  rw [isEmpty, isEmpty, ← Branches.isEmpty_shape, h, Branches.isEmpty_shape]

theorem component?_map (f : Nat → Component → Component) (t : Tree) (node : Nat) :
    (t.map f).component? node = (t.component? node).map (f node) := by
  rw [component?, component?, map, Branches.find?_map, Option.map_map, Option.map_map]
  rfl

theorem map_map (f g : Nat → Component → Component) (t : Tree) :
    (t.map f).map g = t.map fun n c => g n (f n c) :=
  ext (Branches.map_map f g t.pages)

theorem component?_set_self {t : Tree} {node : Nat} {c : Component}
    (h : t.component? node = some c) (d : Component) : (t.set node d).component? node = some d := by
  rw [set, component?_map, h, Option.map_some, if_pos rfl]

theorem component?_set_of_ne {node other : Nat} (h : other ≠ node) (t : Tree) (d : Component) :
    (t.set node d).component? other = t.component? other := by
  rw [set, component?_map]
  have hid : (fun c => if other = node then d else c) = id := by
    funext c
    rw [if_neg h]
    rfl
  rw [hid, Option.map_id, id]

theorem at?_set_self {t : Tree} {a : Address} {c : Component} (h : t.component? a.node = some c)
    (d : Component) : (t.set a.node d).at? a = d.item? a.items := by
  rw [at?, component?_set_self h, Option.bind_some]

theorem at?_set_of_ne {a : Address} {node : Nat} (h : a.node ≠ node) (t : Tree) (d : Component) :
    (t.set node d).at? a = t.at? a := by
  rw [at?, at?, component?_set_of_ne h]

@[simp] theorem shape_set (t : Tree) (node : Nat) (c : Component) :
    (t.set node c).pages.shape = t.pages.shape :=
  Branches.shape_map _ t.pages

theorem getElem?_components (t : Tree) (k : Nat) :
    t.components[k]? = t.preorder[k]?.bind t.component? :=
  Branches.getElem?_values t.sound.nodup k

theorem map_component?_preorder (t : Tree) :
    t.preorder.map t.component? = t.components.map some := by
  apply List.ext_getElem?
  intro k
  rw [List.getElem?_map, List.getElem?_map, getElem?_components]
  cases hk : t.preorder[k]? with
  | none => rfl
  | some node =>
      have hin : node < t.size := t.sound.mem_nodes_iff.1 (List.mem_of_getElem? hk)
      obtain ⟨c, hc⟩ := Option.isSome_iff_exists.1 (component?_isSome_iff.2 hin)
      rw [Option.map_some, Option.bind_some, hc]
      rfl

theorem length_components (t : Tree) : t.components.length = t.size :=
  Branches.length_values t.pages

theorem preorder_eq_of_shape_eq {t u : Tree} (h : t.pages.shape = u.pages.shape) :
    t.preorder = u.preorder :=
  Branches.nodes_eq_of_shape_eq h

theorem components_map (g : Component → Component) (t : Tree) :
    (t.map fun _ c => g c).components = t.components.map g :=
  Branches.values_map g t.pages

/-- Every page has a position. -/
theorem exists_position {t : Tree} {node : Nat} {c : Component} (h : t.component? node = some c) :
    ∃ k : Nat, t.preorder[k]? = some node ∧ t.components[k]? = some c := by
  have hin : node ∈ t.preorder := by
    rw [preorder, t.sound.mem_nodes_iff]
    exact component?_isSome_iff.1 (by rw [h]; rfl)
  obtain ⟨k, hk⟩ := List.getElem?_of_mem hin
  refine ⟨k, hk, ?_⟩
  rw [getElem?_components, hk, Option.bind_some, h]

/-- The pages in pre-order are those found under numbers. -/
theorem mem_preorder_pages_iff {t : Tree} {node : Nat} {c : Component} :
    (node, c) ∈ t.pages.preorder ↔ t.component? node = some c := by
  constructor
  · intro h
    obtain ⟨after, hf⟩ := Branches.find?_eq_some_of_mem t.sound.nodup h
    rw [component?, hf, Option.map_some]
  · intro h
    obtain ⟨k, hk, hc⟩ := exists_position h
    rw [preorder, Branches.nodes, List.getElem?_map, Option.map_eq_some_iff] at hk
    rw [components, Branches.values, List.getElem?_map, Option.map_eq_some_iff] at hc
    obtain ⟨page, hpage, rfl⟩ := hk
    obtain ⟨page', hpage', rfl⟩ := hc
    rw [hpage] at hpage'
    cases hpage'
    exact List.mem_of_getElem? hpage

/-- The components of the pages are those found under numbers. -/
theorem mem_components_iff {t : Tree} {c : Component} :
    c ∈ t.components ↔ ∃ node, t.component? node = some c := by
  constructor
  · intro h
    obtain ⟨k, hk⟩ := List.getElem?_of_mem h
    rw [getElem?_components, Option.bind_eq_some_iff] at hk
    obtain ⟨node, _, hc⟩ := hk
    exact ⟨node, hc⟩
  · rintro ⟨node, h⟩
    obtain ⟨k, _, hk⟩ := exists_position h
    exact List.mem_of_getElem? hk

/-- Trees of one shape are equal if they have the same components at the same positions. -/
theorem eq_of_components_eq {t u : Tree} (shape : t.pages.shape = u.pages.shape)
    (h : ∀ k : Nat, t.components[k]? = u.components[k]?) : t = u :=
  ext (Branches.eq_of_values_eq shape (List.ext_getElem? h))

/-- Trees of one shape are equal if they have the same components under the same numbers. -/
theorem eq_of_component?_eq {t u : Tree} (shape : t.pages.shape = u.pages.shape)
    (h : ∀ node, t.component? node = u.component? node) : t = u := by
  apply eq_of_components_eq shape
  intro k
  have hfun : t.component? = u.component? := funext h
  rw [getElem?_components, getElem?_components, preorder_eq_of_shape_eq shape, hfun]

/-- What an interaction that is accepted does to a tree. -/
theorem respond?_eq_ok_iff {t u : Tree} {a : Address} {i : Interaction} {changes : List Change} :
    t.respond? a i = .ok (u, changes) ↔
      ∃ c d itemChanges, t.component? a.node = some c ∧
        c.respond? i a.items = .ok (d, itemChanges) ∧ u = t.set a.node d ∧
        changes = itemChanges.map (.ofItem a.node) := by
  rw [respond?]
  constructor
  · intro h
    cases hc : t.component? a.node with
    | none =>
        rw [hc] at h
        cases h
    | some c =>
        rw [hc] at h
        obtain ⟨r, hr, he⟩ := Success.map_eq_ok_iff.1 h
        cases he
        exact ⟨c, r.1, r.2, rfl, hr, rfl, rfl⟩
  · rintro ⟨c, d, itemChanges, hc, hr, rfl, rfl⟩
    rw [hc]
    simp only [hr]
    rfl

end Tree

end GuidedLab
