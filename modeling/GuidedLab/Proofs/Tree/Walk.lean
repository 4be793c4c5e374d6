import Mathlib.Data.List.Nodup
import GuidedLab.Proofs.Component.Parts
import GuidedLab.Proofs.Tree.Pages

/-!
# Walking through a tree

All parts of a tree can be met in one order: page by page in pre-order, and on each page a sheet before
its items and every item with what is in it before the next one. `walk` lists the parts in that order, each
with its address. There are no others (`Tree.mem_walk_iff`), and the order does not depend on how it is
walked: it is that of the positions of pages and, on one page, the lexicographic order of the positions
that lead to items (`Tree.Precedes`, `Tree.pairwise_walk`).
-/

namespace GuidedLab

namespace Component

mutual

/-- The parts of a component, each with the positions that lead to it. -/
def walk : Component → List (List Nat × Component)
  | .leaf name state element => [([], .leaf name state element)]
  | .sheet name state orientation items =>
    ([], .sheet name state orientation items) :: walkItems 0 items

/-- The parts of items from a position on. -/
def walkItems (i : Nat) : List Component → List (List Nat × Component)
  | [] => []
  | c :: rest => (walk c).map (fun part => (i :: part.1, part.2)) ++ walkItems (i + 1) rest

end

variable {c d : Component} {p : List Nat} {items : List Component}

theorem mem_walkItems_iff {i : Nat} :
    (p, d) ∈ walkItems i items ↔
      ∃ j c q, items[j]? = some c ∧ p = (i + j) :: q ∧ (q, d) ∈ c.walk := by
  induction items generalizing i with
  | nil =>
      constructor
      · intro h
        cases h
      · rintro ⟨j, c, q, hc, -⟩
        cases hc
  | cons c rest ih =>
      rw [walkItems, List.mem_append, List.mem_map, ih]
      constructor
      · rintro (⟨⟨q, e⟩, hq, heq⟩ | ⟨j, e, q, he, rfl, hq⟩)
        · cases heq
          exact ⟨0, c, q, rfl, rfl, hq⟩
        · exact ⟨j + 1, e, q, he, by rw [Nat.add_right_comm, Nat.add_assoc], hq⟩
      · rintro ⟨j, e, q, he, rfl, hq⟩
        cases j with
        | zero =>
            cases he
            exact Or.inl ⟨(q, d), hq, rfl⟩
        | succ j => exact Or.inr ⟨j, e, q, he, by rw [Nat.add_right_comm, Nat.add_assoc], hq⟩

/-- What is met on a walk are the parts. -/
theorem mem_walk_iff : (p, d) ∈ c.walk ↔ c.item? p = some d := by
  induction c using Component.induction generalizing p with
  | leaf name state element =>
      rw [walk, List.mem_singleton, Prod.mk.injEq]
      cases p with
      | nil =>
          rw [item?_nil, Option.some.injEq, eq_comm (a := d)]
          exact and_iff_right rfl
      | cons i p => exact iff_of_false (fun h => List.cons_ne_nil _ _ h.1) nofun
  | sheet name state orientation items ih =>
      rw [walk, List.mem_cons, mem_walkItems_iff]
      cases p with
      | nil =>
          rw [item?_nil, Option.some.injEq]
          constructor
          · rintro (h | ⟨j, c, q, -, h, -⟩)
            · exact (Prod.mk.inj h).2.symm
            · cases h
          · rintro rfl
            exact Or.inl rfl
      | cons i p =>
          rw [item?_cons_eq_some_iff]
          constructor
          · rintro (h | ⟨j, c, q, hc, h, hq⟩)
            · cases h
            · rw [Nat.zero_add] at h
              cases h
              exact ⟨c, hc, (ih c (List.mem_of_getElem? hc)).1 hq⟩
          · rintro ⟨c, hc, hp⟩
            refine Or.inr ⟨i, c, p, hc, by rw [Nat.zero_add], ?_⟩
            exact (ih c (List.mem_of_getElem? hc)).2 hp

/-- A walk meets the parts in the lexicographic order of the positions that lead to them. -/
theorem pairwise_walk (c : Component) : c.walk.Pairwise fun x y => x.1 < y.1 := by
  induction c using Component.induction with
  | leaf name state element => exact List.pairwise_singleton _ _
  | sheet name state orientation items ih =>
      have hitems : ∀ cs : List Component, (∀ c ∈ cs, c.walk.Pairwise fun x y => x.1 < y.1) →
          ∀ i, (walkItems i cs).Pairwise fun x y => x.1 < y.1 := by
        intro cs hcs
        induction cs with
        | nil => exact fun _ => List.Pairwise.nil
        | cons c rest ih =>
            intro i
            rw [walkItems, List.pairwise_append, List.pairwise_map]
            refine ⟨?_, ih (fun d hd => hcs d (List.mem_cons_of_mem _ hd)) (i + 1), ?_⟩
            · exact (hcs c List.mem_cons_self).imp fun h => List.cons_lt_cons_iff.2 (Or.inr ⟨rfl, h⟩)
            · -- what is in an item comes before what is in a later one
              intro x hx ⟨p, d⟩ hy
              obtain ⟨part, -, rfl⟩ := List.mem_map.1 hx
              obtain ⟨j, e, q, -, rfl, -⟩ := mem_walkItems_iff.1 hy
              exact List.cons_lt_cons_iff.2 (Or.inl (by omega))
      rw [walk, List.pairwise_cons]
      refine ⟨?_, hitems items ih 0⟩
      intro ⟨p, d⟩ h
      obtain ⟨j, e, q, -, rfl, -⟩ := mem_walkItems_iff.1 h
      exact List.nil_lt_cons _ _

/-- The parts of a sheet are the sheet and the parts of its items. -/
theorem map_snd_walk_sheet (name : String) (state : State) (orientation : Orientation)
    (items : List Component) :
    (Component.sheet name state orientation items).walk.map Prod.snd =
      .sheet name state orientation items :: items.flatMap fun c => c.walk.map Prod.snd := by
  have hitems : ∀ i, (walkItems i items).map Prod.snd = items.flatMap fun c => c.walk.map Prod.snd := by
    induction items with
    | nil => exact fun _ => rfl
    | cons c rest ih =>
        intro i
        rw [walkItems, List.map_append, List.map_map, ih, List.flatMap_cons]
        rfl
  rw [walk, List.map_cons, hitems]

end Component

namespace Tree

variable {t : Tree} {a b : Address} {c : Component}

/-- The parts of a tree, each with its address. -/
def walk (t : Tree) : List (Address × Component) :=
  t.pages.preorder.flatMap fun page => page.2.walk.map fun part => (⟨page.1, part.1⟩, part.2)

/-- One address comes before another: its page does in pre-order, or on one page its positions do. -/
def Precedes (t : Tree) (a b : Address) : Prop :=
  t.preorder.idxOf a.node < t.preorder.idxOf b.node ∨ a.node = b.node ∧ a.items < b.items

theorem Precedes.ne (h : t.Precedes a b) : a ≠ b := by
  rintro rfl
  rcases h with h | ⟨-, h⟩
  · exact Nat.lt_irrefl _ h
  · exact List.lt_irrefl _ h

/-- What is met on a walk are the components at all addresses. -/
theorem mem_walk_iff : (a, c) ∈ t.walk ↔ t.at? a = some c := by
  rw [walk, List.mem_flatMap, at?, Option.bind_eq_some_iff]
  constructor
  · rintro ⟨⟨node, page⟩, hpage, h⟩
    obtain ⟨⟨p, d⟩, hpart, heq⟩ := List.mem_map.1 h
    cases heq
    exact ⟨page, mem_preorder_pages_iff.1 hpage, Component.mem_walk_iff.1 hpart⟩
  · rintro ⟨page, hpage, h⟩
    refine ⟨(a.node, page), mem_preorder_pages_iff.2 hpage, List.mem_map.2 ⟨(a.items, c), ?_, rfl⟩⟩
    exact Component.mem_walk_iff.2 h

/-- A walk meets the components in the order of their addresses. -/
theorem pairwise_walk (t : Tree) : t.walk.Pairwise fun x y => t.Precedes x.1 y.1 := by
  rw [walk, List.pairwise_flatMap]
  constructor
  · intro page _
    rw [List.pairwise_map]
    exact page.2.pairwise_walk.imp fun h => Or.inr ⟨rfl, h⟩
  · rw [List.pairwise_iff_getElem]
    intro i j hi hj hij x hx y hy
    obtain ⟨_, -, rfl⟩ := List.mem_map.1 hx
    obtain ⟨_, -, rfl⟩ := List.mem_map.1 hy
    -- no number comes twice, so a page is where its number is first met
    have hidx : ∀ (k : Nat) (hk : k < t.pages.preorder.length),
        t.preorder.idxOf t.pages.preorder[k].1 = k := by
      intro k hk
      have hlt : k < t.preorder.length := by rwa [preorder, Branches.nodes, List.length_map]
      have hnode : t.pages.preorder[k].1 = t.preorder[k] := by
        rw [List.getElem_of_eq (show t.preorder = t.pages.preorder.map Prod.fst from rfl),
          List.getElem_map]
      rw [hnode]
      exact t.sound.nodup.idxOf_getElem k hlt
    refine Or.inl ?_
    show t.preorder.idxOf t.pages.preorder[i].1 < t.preorder.idxOf t.pages.preorder[j].1
    rw [hidx i hi, hidx j hj]
    exact hij

/-- The parts of a tree are those of its components in pre-order. -/
theorem map_snd_walk (t : Tree) :
    t.walk.map Prod.snd = t.components.flatMap fun c => c.walk.map Prod.snd := by
  rw [walk, components, Branches.values, List.map_flatMap, List.flatMap_map]
  congr 1
  funext page
  rw [List.map_map]
  rfl

end Tree

end GuidedLab
