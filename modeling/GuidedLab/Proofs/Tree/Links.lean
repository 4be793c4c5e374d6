import GuidedLab.Proofs.Tree.Pages

/-!
# Links between pages

A page is linked to the pages that follow it on its branches. In sound branches a link is a matter of
both its ends: the page before and the branch determine the page after (`link?_eq_some_iff`), and the
page after determines the page before, which is its parent (`Tree.parent?_of_successor?`), and the
branch. Since numbers rise along links, the root is after no page, and every other page is after one
(`Tree.exists_successor?`).

`t.Leads path node` says that the links in `path` lead from the root to a page, each given by the page
it starts from and its branch. So every page has one path, and the pages on it are the page's proper
ancestors.
-/

namespace GuidedLab

namespace Branches

variable {α : Type}

theorem links_cons (b : UInt32) (n : Nat) (v : α) (after others : Branches α) :
    (cons b n v after others).links = (b, n) :: others.links := rfl

theorem link?_cons (b : UInt32) (n : Nat) (v : α) (after others : Branches α) (branch : UInt32) :
    (cons b n v after others).link? branch = if b = branch then some n else others.link? branch := by
  rw [link?, links_cons, List.find?_cons]
  by_cases h : b = branch
  · simp [h]
  · simp [h, link?]

theorem mem_nodes_of_mem_links {t : Branches α} {l : UInt32 × Nat} (h : l ∈ t.links) :
    l.2 ∈ t.nodes := by
  induction t with
  | nil => cases h
  | cons b n v after others _ iho =>
      rw [nodes_cons, List.mem_cons, List.mem_append]
      rcases List.mem_cons.1 h with rfl | h
      · exact Or.inl rfl
      · exact Or.inr (Or.inr (iho h))

/-- Where branches ascend, a branch leads to the one page that is linked on it. -/
theorem link?_eq_some_iff {t : Branches α} (h : t.Ascending) {branch : UInt32} {node : Nat} :
    t.link? branch = some node ↔ (branch, node) ∈ t.links := by
  induction t with
  | nil => simp [link?, links]
  | cons b n v after others _ iho =>
      rw [link?_cons, links_cons, List.mem_cons]
      by_cases hb : b = branch
      · subst hb
        have hnot : (b, node) ∉ others.links := by
          intro hm
          have hlt := h.1 _ hm
          rw [UInt32.lt_iff_toNat_lt] at hlt
          exact Nat.lt_irrefl _ hlt
        rw [if_pos rfl]
        simp [hnot, eq_comm]
      · rw [if_neg hb, iho h.2.2]
        simp [Ne.symm hb]

/-- A page is found at the front, among the pages after it or among the others. -/
theorem find?_cons_cases {b : UInt32} {n : Nat} {v : α} {after others : Branches α} {node : Nat}
    {page : α × Branches α} (hf : (cons b n v after others).find? node = some page) :
    (n = node ∧ page = (v, after)) ∨ after.find? node = some page ∨
      others.find? node = some page := by
  rw [find?] at hf
  split at hf
  · next hn => exact Or.inl ⟨hn, (Option.some.inj hf).symm⟩
  · rcases Option.or_eq_some_iff.1 hf with hf | ⟨-, hf⟩
    · exact Or.inr (Or.inl hf)
    · exact Or.inr (Or.inr hf)

theorem ascending_of_find? {t : Branches α} (h : t.Ascending) {node : Nat} {page : α × Branches α}
    (hf : t.find? node = some page) : page.2.Ascending := by
  induction t with
  | nil => cases hf
  | cons b n v after others iha iho =>
      rcases find?_cons_cases hf with ⟨-, rfl⟩ | hf | hf
      · exact h.2.1
      · exact iha h.2.1 hf
      · exact iho h.2.2 hf

theorem rising_of_find? {least : Nat} {t : Branches α} (h : t.Rising least) {node : Nat}
    {page : α × Branches α} (hf : t.find? node = some page) : page.2.Rising (node + 1) := by
  induction t generalizing least with
  | nil => cases hf
  | cons b n v after others iha iho =>
      rcases find?_cons_cases hf with ⟨rfl, rfl⟩ | hf | hf
      · exact h.2.1
      · exact iha h.2.1 hf
      · exact iho h.2.2 hf

theorem le_of_mem_links {least : Nat} {t : Branches α} (h : t.Rising least) {l : UInt32 × Nat}
    (hl : l ∈ t.links) : least ≤ l.2 := by
  induction t with
  | nil => cases hl
  | cons b n v after others _ iho =>
      rcases List.mem_cons.1 hl with rfl | hl
      · exact h.1
      · exact iho h.2.2 hl

theorem nodup_after {b : UInt32} {n : Nat} {v : α} {after others : Branches α}
    (hd : (cons b n v after others).nodes.Nodup) : after.nodes.Nodup := by
  rw [nodes_cons] at hd
  exact (List.nodup_append.1 (List.nodup_cons.1 hd).2).1

theorem nodup_others {b : UInt32} {n : Nat} {v : α} {after others : Branches α}
    (hd : (cons b n v after others).nodes.Nodup) : others.nodes.Nodup := by
  rw [nodes_cons] at hd
  exact (List.nodup_append.1 (List.nodup_cons.1 hd).2).2.1

theorem not_mem_after_of_mem_others {b : UInt32} {n : Nat} {v : α} {after others : Branches α}
    (hd : (cons b n v after others).nodes.Nodup) {node : Nat} (h : node ∈ others.nodes) :
    node ∉ after.nodes := by
  rw [nodes_cons] at hd
  intro ha
  exact (List.nodup_append.1 (List.nodup_cons.1 hd).2).2.2 _ ha _ h rfl

theorem ne_of_mem_nodes {b : UInt32} {n : Nat} {v : α} {after others : Branches α}
    (hd : (cons b n v after others).nodes.Nodup) {node : Nat}
    (h : node ∈ after.nodes ∨ node ∈ others.nodes) : n ≠ node := by
  rw [nodes_cons] at hd
  rintro rfl
  exact (List.nodup_cons.1 hd).1 (List.mem_append.2 h)

theorem nodup_of_find? {t : Branches α} (hd : t.nodes.Nodup) {node : Nat}
    {page : α × Branches α} (hf : t.find? node = some page) : page.2.nodes.Nodup := by
  induction t with
  | nil => cases hf
  | cons b n v after others iha iho =>
      rcases find?_cons_cases hf with ⟨-, rfl⟩ | hf | hf
      · exact nodup_after hd
      · exact iha (nodup_after hd) hf
      · exact iho (nodup_others hd) hf

/-- Where numbers are unique, a page stands on one branch of a place. -/
theorem branch_unique {t : Branches α} (hd : t.nodes.Nodup) {branch branch' : UInt32} {node : Nat}
    (h : (branch, node) ∈ t.links) (h' : (branch', node) ∈ t.links) : branch = branch' := by
  induction t with
  | nil => cases h
  | cons b n v after others _ iho =>
      have hne : ∀ {c : UInt32}, (c, n) ∉ others.links := fun hm =>
        ne_of_mem_nodes hd (Or.inr (mem_nodes_of_mem_links hm)) rfl
      rcases List.mem_cons.1 h with heq | hm
      · cases heq
        rcases List.mem_cons.1 h' with heq | hm'
        · cases heq
          rfl
        · exact absurd hm' hne
      · rcases List.mem_cons.1 h' with heq | hm'
        · cases heq
          exact absurd hm hne
        · exact iho (nodup_others hd) hm hm'

theorem mem_nodes_of_mem_after {t : Branches α} {node : Nat} {page : α × Branches α}
    (hf : t.find? node = some page) {m : Nat} (h : m ∈ page.2.nodes) : m ∈ t.nodes := by
  induction t with
  | nil => cases hf
  | cons b n v after others iha iho =>
      rw [nodes_cons, List.mem_cons, List.mem_append]
      rcases find?_cons_cases hf with ⟨-, rfl⟩ | hf | hf
      · exact Or.inr (Or.inl h)
      · exact Or.inr (Or.inl (iha hf))
      · exact Or.inr (Or.inr (iho hf))

theorem parent?_of_not_mem {t : Branches α} {node : Nat} (h : node ∉ t.nodes)
    (before : Option Nat) : t.parent? node before = none := by
  induction t generalizing before with
  | nil => rfl
  | cons b n v after others iha iho =>
      rw [nodes_cons, List.mem_cons, List.mem_append, not_or, not_or] at h
      rw [parent?, if_neg (Ne.symm h.1), iha h.2.1, iho h.2.2, Option.or_none]

theorem parent?_of_mem_links {t : Branches α} (hd : t.nodes.Nodup) {l : UInt32 × Nat}
    (h : l ∈ t.links) (before : Option Nat) : t.parent? l.2 before = before := by
  induction t with
  | nil => cases h
  | cons b n v after others _ iho =>
      rw [parent?]
      rcases List.mem_cons.1 h with rfl | h
      · rw [if_pos rfl]
      · have hin := mem_nodes_of_mem_links h
        rw [if_neg (ne_of_mem_nodes hd (Or.inr hin)),
          parent?_of_not_mem (not_mem_after_of_mem_others hd hin), iho (nodup_others hd) h,
          Option.none_or]

/-- What follows a page has that page for a parent. -/
theorem parent?_of_find? {t : Branches α} (hd : t.nodes.Nodup) {node : Nat}
    {page : α × Branches α} (hf : t.find? node = some page) {l : UInt32 × Nat}
    (h : l ∈ page.2.links) (before : Option Nat) : t.parent? l.2 before = some node := by
  induction t generalizing before with
  | nil => cases hf
  | cons b n v after others iha iho =>
      have hin := mem_nodes_of_mem_links h
      rw [parent?]
      rcases find?_cons_cases hf with ⟨rfl, rfl⟩ | hf | hf
      · rw [if_neg (ne_of_mem_nodes hd (Or.inl hin)), parent?_of_mem_links (nodup_after hd) h,
          Option.some_or]
      · have hafter := mem_nodes_of_mem_after hf hin
        rw [if_neg (ne_of_mem_nodes hd (Or.inl hafter)), iha (nodup_after hd) hf, Option.some_or]
      · -- the search comes to the others only when the pages after the first have no such page
        have hothers := mem_nodes_of_mem_after hf hin
        rw [if_neg (ne_of_mem_nodes hd (Or.inr hothers)),
          parent?_of_not_mem (not_mem_after_of_mem_others hd hothers), iho (nodup_others hd) hf,
          Option.none_or]

/-- A page is linked from the place itself or from a page. -/
theorem exists_link {t : Branches α} (hd : t.nodes.Nodup) {node : Nat} (h : node ∈ t.nodes) :
    (∃ branch, (branch, node) ∈ t.links) ∨
      ∃ before page branch, t.find? before = some page ∧ (branch, node) ∈ page.2.links := by
  induction t with
  | nil => cases h
  | cons b n v after others iha iho =>
      rw [nodes_cons, List.mem_cons, List.mem_append] at h
      rcases h with rfl | h | h
      · exact Or.inl ⟨b, List.mem_cons_self⟩
      · rcases iha (nodup_after hd) h with ⟨branch, hl⟩ | ⟨before, page, branch, hf, hl⟩
        · exact Or.inr ⟨n, (v, after), branch, by rw [find?, if_pos rfl], hl⟩
        · exact Or.inr ⟨before, page, branch, find?_cons_of_after hd hf, hl⟩
      · rcases iho (nodup_others hd) h with ⟨branch, hl⟩ | ⟨before, page, branch, hf, hl⟩
        · exact Or.inl ⟨branch, List.mem_cons_of_mem _ hl⟩
        · exact Or.inr ⟨before, page, branch, find?_cons_of_others hd hf, hl⟩

end Branches

namespace Tree

theorem root?_eq_some_iff {t : Tree} {node : Nat} :
    t.root? = some node ↔ node = 0 ∧ t.isEmpty = false := by
  rw [root?, Branches.link?_eq_some_iff t.sound.ascending, isEmpty]
  cases hp : t.pages with
  | nil => simp [Branches.links, Branches.isEmpty]
  | cons b n c after others =>
      rcases t.rooted with h | h
      · rw [hp] at h
        cases h
      · rw [hp] at h
        simp [h, Branches.isEmpty]

theorem successor?_eq_some_iff {t : Tree} {node next : Nat} {branch : UInt32} :
    t.successor? node branch = some next ↔
      ∃ page, t.pages.find? node = some page ∧ (branch, next) ∈ page.2.links := by
  rw [successor?, Option.bind_eq_some_iff]
  apply exists_congr
  intro page
  apply and_congr_right
  intro hf
  exact Branches.link?_eq_some_iff (Branches.ascending_of_find? t.sound.ascending hf)

/-- Which pages follow which is a matter of the shape. -/
theorem successor?_eq_shape (t : Tree) (node : Nat) (branch : UInt32) :
    t.successor? node branch = (t.pages.shape.find? node).bind fun page => page.2.link? branch := by
  rw [successor?, Branches.shape, Branches.find?_map, Option.bind_map]
  congr 1
  funext page
  rw [Function.comp_apply, Branches.link?, Branches.link?, Branches.links_map]

theorem root?_eq_shape (t : Tree) : t.root? = t.pages.shape.link? 0 := by
  rw [root?, Branches.link?, Branches.link?, Branches.links_shape]

theorem successor?_eq_of_shape_eq {t u : Tree} (shape : t.pages.shape = u.pages.shape)
    (node : Nat) : t.successor? node = u.successor? node := by
  funext branch
  rw [successor?_eq_shape, shape, ← successor?_eq_shape]

theorem root?_eq_of_shape_eq {t u : Tree} (shape : t.pages.shape = u.pages.shape) :
    t.root? = u.root? := by
  rw [root?_eq_shape, shape, ← root?_eq_shape]

/-- Numbers rise along links. -/
theorem lt_of_successor? {t : Tree} {node next : Nat} {branch : UInt32}
    (h : t.successor? node branch = some next) : node < next := by
  obtain ⟨page, hf, hl⟩ := successor?_eq_some_iff.1 h
  exact Branches.le_of_mem_links (Branches.rising_of_find? t.sound.rising hf) hl

/-- The page before a page is its parent, so there is no other. -/
theorem parent?_of_successor? {t : Tree} {node next : Nat} {branch : UInt32}
    (h : t.successor? node branch = some next) : t.parent? next = some node := by
  obtain ⟨page, hf, hl⟩ := successor?_eq_some_iff.1 h
  exact Branches.parent?_of_find? t.sound.nodup hf hl none

theorem link_unique {t : Tree} {node node' next : Nat} {branch branch' : UInt32}
    (h : t.successor? node branch = some next) (h' : t.successor? node' branch' = some next) :
    node = node' ∧ branch = branch' := by
  have hnode : node = node' := by
    apply Option.some.inj
    rw [← parent?_of_successor? h, parent?_of_successor? h']
  subst hnode
  obtain ⟨page, hf, hl⟩ := successor?_eq_some_iff.1 h
  obtain ⟨page', hf', hl'⟩ := successor?_eq_some_iff.1 h'
  rw [hf] at hf'
  cases hf'
  exact ⟨rfl, Branches.branch_unique (Branches.nodup_of_find? t.sound.nodup hf) hl hl'⟩

/-- Every page but the root follows a page. -/
theorem exists_successor? {t : Tree} {node : Nat} (h : node < t.size) (hne : node ≠ 0) :
    ∃ before branch, t.successor? before branch = some node := by
  rcases Branches.exists_link t.sound.nodup (t.sound.mem_nodes_iff.2 h) with
    ⟨branch, hl⟩ | ⟨before, page, branch, hf, hl⟩
  · rcases t.rooted with hr | hr
    · rw [hr] at hl
      cases hl
    · rw [hr, List.mem_singleton] at hl
      cases hl
      exact absurd rfl hne
  · exact ⟨before, branch, successor?_eq_some_iff.2 ⟨page, hf, hl⟩⟩

/-- The links in `path`, from the root on, lead to a page. -/
inductive Leads (t : Tree) : List (Nat × UInt32) → Nat → Prop where
  | root {node : Nat} (h : t.root? = some node) : Leads t [] node
  | link {path : List (Nat × UInt32)} {node next : Nat} {branch : UInt32} (h : Leads t path node)
      (hs : t.successor? node branch = some next) : Leads t (path ++ [(node, branch)]) next

theorem Leads.lt_size {t : Tree} {path : List (Nat × UInt32)} {node : Nat}
    (h : t.Leads path node) : node < t.size := by
  cases h with
  | root hr =>
      obtain ⟨rfl, hne⟩ := root?_eq_some_iff.1 hr
      exact Nat.pos_of_ne_zero (isEmpty_eq_false_iff.1 hne)
  | link _ hs =>
      obtain ⟨page, hf, hl⟩ := successor?_eq_some_iff.1 hs
      have hin := Branches.mem_nodes_of_mem_after hf (Branches.mem_nodes_of_mem_links hl)
      exact t.sound.mem_nodes_iff.1 hin

theorem Leads.of_shape_eq {t u : Tree} (shape : t.pages.shape = u.pages.shape)
    {path : List (Nat × UInt32)} {node : Nat} (h : t.Leads path node) : u.Leads path node := by
  induction h with
  | root hr =>
      apply Leads.root
      rw [← root?_eq_of_shape_eq shape, hr]
  | link _ hs ih =>
      apply ih.link
      rw [← successor?_eq_of_shape_eq shape, hs]

/-- One path leads to a page. -/
theorem Leads.unique {t : Tree} {path path' : List (Nat × UInt32)} {node : Nat}
    (h : t.Leads path node) (h' : t.Leads path' node) : path = path' := by
  have root_ne : ∀ {m n next branch}, t.root? = some n → t.successor? m branch = some next →
      next ≠ n := by
    intro m n next branch hr hs
    have hlt := lt_of_successor? hs
    have hzero := (root?_eq_some_iff.1 hr).1
    omega
  induction h generalizing path' with
  | root hr =>
      cases h' with
      | root => rfl
      | link h' hs => exact absurd rfl (root_ne hr hs)
  | link h hs ih =>
      cases h' with
      | root hr => exact absurd rfl (root_ne hr hs)
      | link h' hs' =>
          obtain ⟨rfl, rfl⟩ := link_unique hs hs'
          rw [ih h']

theorem exists_leads {t : Tree} {node : Nat} (h : node < t.size) : ∃ path, t.Leads path node := by
  induction node using Nat.strongRecOn with
  | ind node ih =>
      by_cases hz : node = 0
      · have hroot : t.root? = some node :=
          root?_eq_some_iff.2 ⟨hz, isEmpty_eq_false_iff.2 (by omega)⟩
        exact ⟨[], .root hroot⟩
      · obtain ⟨before, branch, hs⟩ := exists_successor? h hz
        have hlt := lt_of_successor? hs
        obtain ⟨path, hp⟩ := ih before hlt (by omega)
        exact ⟨_, .link hp hs⟩

end Tree

end GuidedLab
