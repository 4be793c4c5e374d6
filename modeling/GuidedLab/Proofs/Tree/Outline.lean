import GuidedLab.Tree.Fingerprint
import GuidedLab.Proofs.Component.Outline
import GuidedLab.Proofs.Tree.Pages

/-!
# The outline of a tree

The outline of a tree is its structure: for each page in pre-order the outline of its component, and
the branches that go on from it with the positions in pre-order they lead to. The numbers of the
pages are not in it, so two trees that grew in different orders may have one outline.

The description of a tree walks over the pages with a running position instead of looking positions
up. `rows` is that walk; `Tree.outline_eq_rows` says that it finds the same, and
`Tree.description_eq_of_outline_eq` that trees of one outline are described by the same text.
-/

namespace GuidedLab

namespace Branches

/-- The components of the pages from a position on, each with its branches and where they lead. -/
def rows (p : Nat) : Branches Component → List (Component × List (UInt32 × Nat))
  | nil => []
  | cons _ _ c after others =>
    (c, Fingerprint.positions (p + 1) after) ::
      (after.rows (p + 1) ++ others.rows (p + 1 + after.size))

theorem rows_cons (p : Nat) (b : UInt32) (n : Nat) (c : Component)
    (after others : Branches Component) :
    (cons b n c after others).rows p = (c, Fingerprint.positions (p + 1) after) ::
      (after.rows (p + 1) ++ others.rows (p + 1 + after.size)) := rfl

theorem map_fst_rows (p : Nat) (t : Branches Component) : (t.rows p).map Prod.fst = t.values := by
  induction t generalizing p with
  | nil => rfl
  | cons b n c after others iha iho =>
      rw [rows_cons, List.map_cons, List.map_append, iha, iho, values_cons]

end Branches

namespace Tree

/-- The outline of each page in pre-order, and where its branches lead. -/
def outline (t : Tree) : List (Outline × List (UInt32 × Nat)) :=
  t.pages.preorder.map fun page =>
    (page.2.outline, (t.successors page.1).map fun l => (l.1, t.preorder.idxOf l.2))

/-- The branches of a place lead to the positions that the walk gives them. -/
theorem links_map_idxOf {nodes before later : List Nat} (hd : nodes.Nodup)
    {u : Branches Component} (h : nodes = before ++ (u.nodes ++ later)) :
    (u.links.map fun l => (l.1, nodes.idxOf l.2)) = Fingerprint.positions before.length u := by
  induction u generalizing before with
  | nil => rfl
  | cons b n c after others _ iho =>
      have hn : nodes.idxOf n = before.length := by
        rw [h, Branches.nodes_cons]
        have hnot : n ∉ before := by
          intro hin
          rw [h, Branches.nodes_cons] at hd
          exact (List.nodup_append.1 hd).2.2 _ hin _ List.mem_cons_self rfl
        rw [List.idxOf_append, if_neg hnot, List.cons_append, List.idxOf_cons_self, Nat.zero_add]
      have hrest : nodes = (before ++ n :: after.nodes) ++ (others.nodes ++ later) := by
        rw [h, Branches.nodes_cons]
        simp only [List.append_assoc, List.cons_append]
      have hlen : (before ++ n :: after.nodes).length = before.length + 1 + after.size := by
        rw [List.length_append, List.length_cons, Branches.length_nodes]
        omega
      rw [Branches.links, List.map_cons, hn, Fingerprint.positions, iho hrest, hlen]

/-- The walk over part of a tree finds the components and branches of its pages. -/
theorem map_preorder_eq_rows (t : Tree) {before later : List Nat} {u : Branches Component}
    (h : t.preorder = before ++ (u.nodes ++ later))
    (found : ∀ node page, u.find? node = some page → t.pages.find? node = some page) :
    (u.preorder.map fun page =>
      (page.2, (t.successors page.1).map fun l => (l.1, t.preorder.idxOf l.2))) =
        u.rows before.length := by
  induction u generalizing before later with
  | nil => rfl
  | cons b n c after others iha iho =>
      have hd : t.preorder.Nodup := t.sound.nodup
      have hself : t.pages.find? n = some (c, after) := by
        apply found
        rw [Branches.find?, if_pos rfl]
      have hsucc : t.successors n = after.links := by rw [successors, hself]
      have hafter : t.preorder = (before ++ [n]) ++ (after.nodes ++ (others.nodes ++ later)) := by
        rw [h, Branches.nodes_cons]
        simp only [List.append_assoc, List.cons_append, List.nil_append]
      have hothers : t.preorder = (before ++ n :: after.nodes) ++ (others.nodes ++ later) := by
        rw [h, Branches.nodes_cons]
        simp only [List.append_assoc, List.cons_append]
      have hlen : (before ++ n :: after.nodes).length = before.length + 1 + after.size := by
        rw [List.length_append, List.length_cons, Branches.length_nodes]
        omega
      have hnodup : (Branches.cons b n c after others).nodes.Nodup := by
        rw [h] at hd
        exact (List.nodup_append.1 (List.nodup_append.1 hd).2.1).1
      have hlinks := links_map_idxOf hd hafter
      rw [List.length_append, List.length_singleton] at hlinks
      have hra := iha hafter fun node page hf =>
        found node page (Branches.find?_cons_of_after hnodup hf)
      rw [List.length_append, List.length_singleton] at hra
      have hro := iho hothers fun node page hf =>
        found node page (Branches.find?_cons_of_others hnodup hf)
      rw [hlen] at hro
      rw [Branches.preorder_cons, List.map_cons, List.map_append, hra, hro, hsucc, hlinks,
        Branches.rows_cons]

theorem outline_eq_rows (t : Tree) :
    t.outline = (t.pages.rows 0).map fun row => (row.1.outline, row.2) := by
  have hwhole : t.preorder = [] ++ (t.pages.nodes ++ []) := by
    rw [List.append_nil, List.nil_append, preorder]
  have hrows := map_preorder_eq_rows t hwhole fun _ _ h => h
  rw [List.length_nil] at hrows
  rw [← hrows, List.map_map]
  rfl

theorem length_outline (t : Tree) : t.outline.length = t.size := by
  rw [outline, List.length_map, Branches.length_preorder, size]

theorem map_fst_outline (t : Tree) :
    t.outline.map Prod.fst = t.components.map Component.outline := by
  rw [outline_eq_rows, List.map_map, components, ← Branches.map_fst_rows 0, List.map_map]
  rfl

theorem successors_map (f : Nat → Component → Component) (t : Tree) (node : Nat) :
    (t.map f).successors node = t.successors node := by
  rw [successors, successors, map, Branches.find?_map]
  cases t.pages.find? node with
  | none => rfl
  | some page => exact Branches.links_map f page.2

/-- Changes that leave the outlines of components leave the outline of the tree. -/
theorem outline_map {f : Nat → Component → Component}
    (h : ∀ node c, (f node c).outline = c.outline) (t : Tree) : (t.map f).outline = t.outline := by
  rw [outline, outline, preorder_map, map, Branches.preorder_map, List.map_map]
  apply List.map_congr_left
  intro page _
  rw [Function.comp_apply, h]
  exact congrArg (Prod.mk _) (congrArg (List.map _) (successors_map f t page.1))

end Tree

/-! ### The description -/

namespace Fingerprint

theorem component_leaf (n : String) (state : State) (element : Element) :
    component (.leaf n state element) = element.label.toList ++ name n := rfl

theorem component_sheet (n : String) (state : State) (orientation : Orientation)
    (items : List Component) :
    component (.sheet n state orientation items) =
      "sheet".toList ++ name n ++ '[' :: (itemList items ++ [']']) := rfl

/-- A page as it is described. -/
def row (r : Component × List (UInt32 × Nat)) : List Char :=
  component r.1 ++ '\x7b' :: (r.2.flatMap link ++ ['\x7d', ';'])

theorem pages_eq_flatMap (p : Nat) (t : Branches Component) :
    pages p t = (t.rows p).flatMap row := by
  induction t generalizing p with
  | nil => rfl
  | cons b n c after others iha iho =>
      rw [pages, Branches.rows_cons, List.flatMap_cons, List.flatMap_append, iha, iho, row]
      simp only [List.append_assoc, List.cons_append, List.nil_append]

theorem itemList_eq_flatMap (items : List Component) :
    itemList items = items.flatMap fun c => component c ++ [','] := by
  induction items with
  | nil => rfl
  | cons c rest ih =>
      rw [itemList, List.flatMap_cons, ih, List.append_assoc]
      rfl

/-- The description of a component is a matter of its outline. -/
theorem component_eq_of_outline_eq {c d : Component} (h : c.outline = d.outline) :
    component c = component d := by
  induction c using Component.induction generalizing d with
  | leaf name state element =>
      obtain ⟨state', element', rfl, hlabel⟩ := Component.exists_leaf_of_outline_eq h.symm
      rw [component_leaf, component_leaf, hlabel]
  | sheet name state orientation items ih =>
      obtain ⟨state', orientation', items', rfl, hitems⟩ :=
        Component.exists_sheet_of_outline_eq h.symm
      have hflat : itemList items = itemList items' := by
        rw [itemList_eq_flatMap, itemList_eq_flatMap]
        apply Lists.flatMap_eq_of_map_eq hitems.symm
        intro x hx y hxy
        rw [ih x hx hxy]
      rw [component_sheet, component_sheet, hflat]

end Fingerprint

namespace Tree

/-- Trees of one outline have one description. -/
theorem description_eq_of_outline_eq {t u : Tree} (h : t.outline = u.outline) :
    t.description = u.description := by
  rw [outline_eq_rows, outline_eq_rows] at h
  rw [description, description, Fingerprint.pages_eq_flatMap, Fingerprint.pages_eq_flatMap]
  apply congrArg String.ofList
  apply Lists.flatMap_eq_of_map_eq h
  intro x _ y hxy
  injection hxy with hc hl
  rw [Fingerprint.row, Fingerprint.row, Fingerprint.component_eq_of_outline_eq hc, hl]

theorem fingerprint_eq_of_outline_eq {t u : Tree} (h : t.outline = u.outline) :
    t.fingerprint = u.fingerprint := by
  rw [fingerprint, fingerprint, description_eq_of_outline_eq h]

end Tree

end GuidedLab
