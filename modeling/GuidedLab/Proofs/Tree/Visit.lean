import GuidedLab.Proofs.Tree.Register

/-!
# Visiting the pages of a tree

The pages that can be reached from a page are the page and, successor by successor in ascending order of
their branches, the pages that can be reached from these (`under`). That recursion goes over numbers and
links, not over the form of the tree; it ends because numbers rise along links and stay below the number
of pages. From the root it meets the pages in pre-order (`preorder_eq_under`).

A register is visited in passes. A pass takes the first of the pages that are pending, notes it as met
and puts its successors in its place. What is under the pending pages, one after the other, is what is
yet to be met (`Keeps.exists_visit`), and that shrinks by one page in every pass. So the visit ends after
as many passes as there are pages, and has met them in pre-order (`Keeps.visit?_eq`).

`IsTree` sums up how a register behaves as a tree, and it does so after any calls (`after_isTree`).
-/

namespace GuidedLab

namespace Branches

variable {α : Type}

/-- Where branches ascend, so do the links of the place. -/
theorem pairwise_links {t : Branches α} (h : t.Ascending) :
    t.links.Pairwise fun l m => l.1 < m.1 := by
  induction t with
  | nil => exact List.Pairwise.nil
  | cons b n v after others _ iho => exact List.pairwise_cons.2 ⟨h.1, iho h.2.2⟩

end Branches

namespace Tree

variable {t : Tree} {node : Nat}

theorem successors_of_find? {page : Component × Branches Component}
    (h : t.pages.find? node = some page) : t.successors node = page.2.links := by
  rw [successors, h]

/-- The pages that follow a page, by branch in ascending order. -/
theorem pairwise_successors (t : Tree) (node : Nat) :
    (t.successors node).Pairwise fun l m => l.1 < m.1 := by
  cases hf : t.pages.find? node with
  | none =>
      rw [successors, hf]
      exact List.Pairwise.nil
  | some page =>
      rw [successors_of_find? hf]
      exact Branches.pairwise_links (Branches.ascending_of_find? t.sound.ascending hf)

theorem mem_successors_iff {l : UInt32 × Nat} :
    l ∈ t.successors node ↔ t.successor? node l.1 = some l.2 := by
  rw [successor?_eq_some_iff]
  cases hf : t.pages.find? node with
  | none =>
      rw [successors, hf]
      refine iff_of_false List.not_mem_nil ?_
      rintro ⟨page, h, -⟩
      cases h
  | some page =>
      rw [successors_of_find? hf]
      constructor
      · intro h
        exact ⟨page, rfl, h⟩
      · rintro ⟨_, ⟨⟩, h⟩
        exact h

/-- A page that follows another exists. -/
theorem lt_size_of_successor? {next : Nat} {branch : UInt32}
    (h : t.successor? node branch = some next) : next < t.size := by
  obtain ⟨page, hf, hl⟩ := successor?_eq_some_iff.1 h
  exact t.sound.mem_nodes_iff.1
    (Branches.mem_nodes_of_mem_after hf (Branches.mem_nodes_of_mem_links hl))

theorem parent?_zero (t : Tree) : t.parent? 0 = none := by
  rcases t.rooted with h | h
  · have hempty : 0 ∉ t.pages.nodes := by
      cases hp : t.pages with
      | nil => exact List.not_mem_nil
      | cons =>
          rw [hp] at h
          cases h
    exact Branches.parent?_of_not_mem hempty none
  · have hlink : (0, 0) ∈ t.pages.links := by
      rw [h]
      exact List.mem_cons_self
    exact Branches.parent?_of_mem_links t.sound.nodup hlink none

/-- Every page but the root is the successor of one page on one branch. -/
theorem existsUnique_link (hne : 0 < node) (h : node < t.size) :
    ∃! link : Nat × UInt32, t.successor? link.1 link.2 = some node := by
  obtain ⟨before, branch, hs⟩ := exists_successor? h (Nat.ne_of_gt hne)
  refine ⟨(before, branch), hs, ?_⟩
  intro link hlink
  obtain ⟨hbefore, hbranch⟩ := link_unique hlink hs
  exact Prod.ext hbefore hbranch

/-- A page and what can be reached from it, successor by successor in ascending order of branches. -/
def under (t : Tree) (node : Nat) : List Nat :=
  node :: (t.successors node).attach.flatMap fun l => t.under l.1.2
termination_by t.size - node
decreasing_by
  have hs := mem_successors_iff.1 l.2
  have hrises := lt_of_successor? hs
  have hbelow := lt_size_of_successor? hs
  omega

theorem under_eq (t : Tree) (node : Nat) :
    t.under node = node :: (t.successors node).flatMap fun l => t.under l.2 := by
  have hattach : ((t.successors node).attach.flatMap fun l => t.under l.1.2) =
      ((t.successors node).attach.map Subtype.val).flatMap fun l => t.under l.2 := by
    rw [List.flatMap_map]
  rw [under, hattach, List.attach_map_subtype_val]

/-- In part of a tree, the pages in pre-order are what is under the pages of the place. -/
theorem nodes_eq_flatMap_under (t : Tree) {u : Branches Component} (hd : u.nodes.Nodup)
    (found : ∀ node page, u.find? node = some page → t.pages.find? node = some page) :
    u.nodes = u.links.flatMap fun l => t.under l.2 := by
  induction u with
  | nil => rfl
  | cons b n c after others iha iho =>
      have hself : t.pages.find? n = some (c, after) :=
        found n _ (by rw [Branches.find?, if_pos rfl])
      have hafter := iha (Branches.nodup_after hd) fun node page hf =>
        found node page (Branches.find?_cons_of_after hd hf)
      have hothers := iho (Branches.nodup_others hd) fun node page hf =>
        found node page (Branches.find?_cons_of_others hd hf)
      rw [Branches.nodes_cons, Branches.links_cons, List.flatMap_cons, under_eq,
        successors_of_find? hself, ← hafter, ← hothers, List.cons_append]

/-- The pages in pre-order are what is under the root. -/
theorem preorder_eq_under (t : Tree) : t.preorder = t.root?.toList.flatMap t.under := by
  rw [preorder, t.nodes_eq_flatMap_under t.sound.nodup fun _ _ h => h]
  rcases t.rooted with h | h
  · rw [h, root?, Branches.link?, h]
    rfl
  · rw [h, root?, Branches.link?, h]
    rfl

theorem mem_preorder_iff : node ∈ t.preorder ↔ node < t.size := t.sound.mem_nodes_iff

end Tree

namespace Register

variable {r : Register} {t : Tree} {node : Nat}

/-- The first page, which follows none. -/
def root? (r : Register) : Option Nat := if r.isEmpty then none else some 0

/-- How far a visit has come: the pages that were met, and those that are pending, the next one first. -/
structure Visit where
  met : List Nat
  pending : List Nat

/-- A visit after one more pass. It has ended when nothing is pending, and it breaks off at a page that has
no entry. -/
def pass? (r : Register) : Visit → Option Visit
  | ⟨met, []⟩ => some ⟨met, []⟩
  | ⟨met, node :: rest⟩ =>
    r[node]?.map fun e => ⟨met ++ [node], e.successors.map Prod.snd ++ rest⟩

/-- The visit that begins at the root, after a number of passes. -/
def visit? (r : Register) : Nat → Option Visit
  | 0 => some ⟨[], r.root?.toList⟩
  | passes + 1 => (r.visit? passes).bind r.pass?

/-- Nothing is to be met when nothing is pending, and only then. -/
theorem flatMap_under_eq_nil_iff {pending : List Nat} :
    pending.flatMap t.under = [] ↔ pending = [] := by
  cases pending with
  | nil => exact Iff.rfl
  | cons first others =>
      rw [List.flatMap_cons, Tree.under_eq]
      exact iff_of_false nofun nofun

namespace Keeps

theorem root?_eq (h : r.Keeps t) : r.root? = t.root? := by
  apply Option.ext
  intro node
  rw [root?, Tree.root?_eq_some_iff, Tree.isEmpty_eq_false_iff, ← h.size_eq]
  by_cases hsize : r.size = 0
  · rw [if_pos (Array.isEmpty_iff_size_eq_zero.2 hsize)]
    exact iff_of_false nofun fun hnode => hnode.2 hsize
  · rw [if_neg (mt Array.isEmpty_iff_size_eq_zero.1 hsize), Option.some.injEq, eq_comm]
    exact (and_iff_left hsize).symm

/-- A pass meets the first page of what is under the pending ones, and leaves the other pages. -/
theorem exists_pass (h : r.Keeps t) {met pending rest : List Nat} (exists_node : node < t.size)
    (hpending : pending.flatMap t.under = node :: rest) :
    ∃ pending', r.pass? ⟨met, pending⟩ = some ⟨met ++ [node], pending'⟩ ∧
      pending'.flatMap t.under = rest := by
  cases pending with
  | nil => cases hpending
  | cons first others =>
      rw [List.flatMap_cons, Tree.under_eq, List.cons_append] at hpending
      obtain ⟨rfl, rfl⟩ := List.cons.inj hpending
      obtain ⟨e, he⟩ := exists_entryAt? exists_node
      refine ⟨e.successors.map Prod.snd ++ others, ?_, ?_⟩
      · rw [pass?, h first, he, Option.map_some]
      · rw [List.flatMap_append, List.flatMap_map, successors_of_entryAt? he]

/-- After a number of passes, as many pages of the pre-order were met, and what is under the pending ones
are the others. -/
theorem exists_visit (h : r.Keeps t) (passes : Nat) :
    ∃ pending, r.visit? passes = some ⟨t.preorder.take passes, pending⟩ ∧
      pending.flatMap t.under = t.preorder.drop passes := by
  -- what was met and what is under the pending pages make up the pre-order before and after a pass
  induction passes with
  | zero =>
      refine ⟨r.root?.toList, rfl, ?_⟩
      rw [h.root?_eq, ← Tree.preorder_eq_under, List.drop_zero]
  | succ passes ih =>
      obtain ⟨pending, hvisit, hpending⟩ := ih
      rw [visit?, hvisit, Option.bind_some, List.take_add_one, ← List.head?_drop,
        ← List.tail_drop, ← hpending]
      cases hrest : pending.flatMap t.under with
      | nil =>
          obtain rfl : pending = [] := flatMap_under_eq_nil_iff.1 hrest
          exact ⟨[], by rw [pass?, List.head?_nil, Option.toList_none, List.append_nil], rfl⟩
      | cons node rest =>
          have hin : node ∈ t.preorder := by
            apply List.mem_of_mem_drop (i := passes)
            rw [← hpending, hrest]
            exact List.mem_cons_self
          exact h.exists_pass (Tree.mem_preorder_iff.1 hin) hrest

/-- A visit has as many passes as there are pages, and meets them in pre-order. -/
theorem visit?_eq (h : r.Keeps t) (passes : Nat) :
    ∃ pending, r.visit? passes = some ⟨t.preorder.take passes, pending⟩ ∧
      (pending = [] ↔ t.size ≤ passes) := by
  obtain ⟨pending, hvisit, hpending⟩ := h.exists_visit passes
  refine ⟨pending, hvisit, ?_⟩
  rw [← flatMap_under_eq_nil_iff, hpending, List.drop_eq_nil_iff, Tree.preorder,
    Branches.length_nodes, Tree.size]

end Keeps

/-- A register behaves as a tree. -/
structure IsTree (r : Register) (t : Tree) : Prop where
  /-- The register has the entries of the pages. -/
  keeps : r.Keeps t
  /-- The parent and the successors that are written of a page are those that it has. -/
  written : (∀ node, r.parent? node = t.parent? node) ∧
    ∀ node branch, r.successor? node branch = t.successor? node branch
  /-- A call is refused if its origin is unknown or its branch is taken, and in no other case. -/
  refused_iff : ∀ call f, t.perform call = .error f ↔ t.Rejects call f
  /-- A call that is refused leaves the register as it was. -/
  refused : ∀ call f, t.Rejects call f → (perform call).run r = (.error f, r)
  /-- A page that is put on a branch gets the next number, is the successor on that branch and has the
  origin for its parent. -/
  taken : ∀ call u node, t.perform call = .ok (u, node) →
    (∃ r', (perform call).run r = (.ok node, r') ∧ r'.Keeps u) ∧
    ∀ origin branch, call.place? = some (origin, branch) →
      node = t.size ∧ u.successor? origin branch = some node ∧ u.parent? node = some origin
  /-- The root has no parent. -/
  root : r.parent? 0 = none
  /-- A successor exists, has a greater number and the page that it follows for its parent. -/
  linked : ∀ node branch next, r.successor? node branch = some next →
    node < next ∧ next < t.size ∧ r.parent? next = some node
  /-- Every page but the root is the successor of one page on one branch. -/
  linked_once : ∀ node, 0 < node → node < t.size →
    ∃! link : Nat × UInt32, r.successor? link.1 link.2 = some node
  /-- A visit ends after as many passes as there are pages, and has met the first ones of the pre-order
  after fewer. -/
  visited : ∀ passes, ∃ pending, r.visit? passes = some ⟨t.preorder.take passes, pending⟩ ∧
    (pending = [] ↔ t.size ≤ passes)
  /-- Every page is met once. -/
  met_once : t.preorder.Nodup ∧ ∀ node, node ∈ t.preorder ↔ node < t.size
  /-- The pages are met in the order of the recursion: a page, then what is under its successors. -/
  recursive : t.preorder = t.root?.toList.flatMap t.under ∧
    ∀ node, t.under node = node :: (t.successors node).flatMap fun l => t.under l.2
  /-- Successors are in ascending order of their branches. -/
  ascending : ∀ node, (t.successors node).Pairwise fun l m => l.1 < m.1

theorem Keeps.isTree (h : r.Keeps t) : r.IsTree t where
  keeps := h
  written := ⟨h.parent?_eq, h.successor?_eq⟩
  refused_iff _ _ := Tree.perform_eq_error_iff
  refused _ _ := h.run_of_rejects
  taken _ _ _ hu := ⟨h.exists_run hu, fun _ _ => Tree.links_of_perform hu⟩
  root := by rw [h.parent?_eq, t.parent?_zero]
  linked node branch next hs := by
    rw [h.successor?_eq] at hs
    rw [h.parent?_eq]
    exact ⟨Tree.lt_of_successor? hs, Tree.lt_size_of_successor? hs, Tree.parent?_of_successor? hs⟩
  linked_once node hne hlt := by
    simp only [h.successor?_eq]
    exact Tree.existsUnique_link hne hlt
  visited := h.visit?_eq
  met_once := ⟨t.sound.nodup, fun _ => Tree.mem_preorder_iff⟩
  recursive := ⟨t.preorder_eq_under, t.under_eq⟩
  ascending := t.pairwise_successors

/-- After any calls, refused ones among them, the register behaves as the tree that has come about. -/
theorem after_isTree (calls : List Tree.Call) :
    (after #[] calls).IsTree (Tree.empty.after calls) :=
  (Keeps.empty.after calls).isTree

/-- Calls that put a branch before the ordinary one, with two that are refused. -/
def lateNext : List Tree.Call :=
  [.new (.ofCheckbox "root" "?"), .addBranch 0 1 (.ofText "aside" ""), .addNext 0 (.ofText "next" ""),
    .addNext 0 (.ofText "other" ""), .addBranch 9 0 (.ofText "lost" ""), .addNext 2 (.ofText "last" "")]

theorem after_isTree_lateNext :
    (after #[] lateNext).visit? 4 = some ⟨[0, 2, 3, 1], []⟩ ∧
    (addNext 0 (.ofText "other" "")).run (after #[] lateNext) =
      (.error (.branchTaken "root" 2 0), after #[] lateNext) := by
  have htree := after_isTree lateNext
  constructor
  · obtain ⟨pending, hvisit, hended⟩ := htree.visited 4
    obtain rfl : pending = [] := hended.2 (by decide)
    have horder : (Tree.empty.after lateNext).preorder = [0, 2, 3, 1] := by decide
    rw [hvisit, horder]
    rfl
  · have hrejects : (Tree.empty.after lateNext).Rejects (.addNext 0 (.ofText "other" ""))
        (.branchTaken (Component.ofCheckbox "root" "?").name 2 0) := .taken rfl rfl rfl
    exact htree.refused _ _ hrejects

end Register

end GuidedLab
