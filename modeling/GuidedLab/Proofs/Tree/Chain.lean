import GuidedLab.Tree.Chain
import GuidedLab.Proofs.Tree.Links

/-!
# The active chain and paths

The chain of a tree goes from page to page: it starts with the root, and after a page comes the page
on the branch that the state of its component selects (`getElem?_chain_zero`, `getElem?_chain_succ`).
With these two equations it no longer matters that the chain is computed by walking over branches.

They lead from places in the chain to paths and back. The page at place `k` is at the end of a path of
`k` links, along which every page is done and selects the link that the path takes
(`exists_leads_of_getElem?_chain`), and a page whose path is like that has its place in the chain
(`getElem?_chain_of_open`). Since a page has one path, it has at most one place, and the same one in
every tree of that shape (`place_eq_of_shape_eq`).
-/

namespace GuidedLab

namespace Branches

theorem follow_cons (branch? : Option UInt32) (b : UInt32) (n : Nat) (c : Component)
    (after others : Branches Component) :
    (cons b n c after others).follow branch? =
      if branch? = some b then n :: after.follow c.state.branch? else others.follow branch? := rfl

/-- What is met first from a place is the page on the branch that it goes on with. -/
theorem getElem?_follow_zero (branch? : Option UInt32) (t : Branches Component) :
    (t.follow branch?)[0]? = branch?.bind t.link? := by
  induction t with
  | nil =>
      cases branch? with
      | none => rfl
      | some branch => simp [follow, link?, links]
  | cons b n c after others _ iho =>
      rw [follow_cons]
      cases branch? with
      | none => rw [if_neg (Option.some_ne_none b).symm, iho, Option.bind_none, Option.bind_none]
      | some branch =>
          rw [Option.bind_some, link?_cons]
          by_cases h : b = branch
          · rw [if_pos (congrArg some h.symm), if_pos h, List.getElem?_cons_zero]
          · rw [if_neg fun e => h (Option.some.inj e).symm, if_neg h, iho, Option.bind_some]

end Branches

namespace Tree

/-- The page that comes after a page in the chain. -/
def next? (t : Tree) (node : Nat) : Option Nat :=
  (t.component? node).bind fun c => c.state.branch?.bind (t.successor? node)

/-- The component of a page is done. -/
def IsDone (t : Tree) (node : Nat) : Prop :=
  ∃ c, t.component? node = some c ∧ c.state.isDone = true

/-- The component of a page is done and selects a branch. -/
def IsOpen (t : Tree) (node : Nat) (branch : UInt32) : Prop :=
  ∃ c, t.component? node = some c ∧ c.state.isDone = true ∧ c.state.branch? = some branch

theorem next?_eq_some_iff {t : Tree} {node next : Nat} :
    t.next? node = some next ↔
      ∃ branch, t.IsOpen node branch ∧ t.successor? node branch = some next := by
  rw [next?, Option.bind_eq_some_iff]
  constructor
  · rintro ⟨c, hc, h⟩
    obtain ⟨branch, hb, hs⟩ := Option.bind_eq_some_iff.1 h
    have hdone : c.state.isDone = true := c.state.isDone_iff_branch?.2 (by rw [hb]; rfl)
    exact ⟨branch, ⟨c, hc, hdone, hb⟩, hs⟩
  · rintro ⟨branch, ⟨c, hc, -, hb⟩, hs⟩
    exact ⟨c, hc, Option.bind_eq_some_iff.2 ⟨branch, hb, hs⟩⟩

theorem next?_of_find? {t : Tree} {node : Nat} {page : Component × Branches Component}
    (hf : t.pages.find? node = some page) :
    t.next? node = page.1.state.branch?.bind page.2.link? := by
  have hs : t.successor? node = page.2.link? := by
    funext branch
    rw [successor?, hf, Option.bind_some]
  rw [next?, component?, hf, Option.map_some, Option.bind_some, hs]

/-- The walk over part of a tree goes on as the tree does. -/
theorem getElem?_follow_succ (t : Tree) {u : Branches Component} (hd : u.nodes.Nodup)
    (found : ∀ node page, u.find? node = some page → t.pages.find? node = some page)
    (branch? : Option UInt32) (k : Nat) :
    (u.follow branch?)[k + 1]? = (u.follow branch?)[k]?.bind t.next? := by
  induction u generalizing branch? k with
  | nil => rfl
  | cons b n c after others iha iho =>
      rw [Branches.follow_cons]
      by_cases h : branch? = some b
      · rw [if_pos h, List.getElem?_cons_succ]
        cases k with
        | zero =>
            have hself : t.pages.find? n = some (c, after) :=
              found n _ (by rw [Branches.find?, if_pos rfl])
            rw [List.getElem?_cons_zero, Option.bind_some, next?_of_find? hself,
              Branches.getElem?_follow_zero]
        | succ k =>
            rw [List.getElem?_cons_succ]
            exact iha (Branches.nodup_after hd)
              (fun node page hf => found node page (Branches.find?_cons_of_after hd hf)) _ k
      · rw [if_neg h]
        exact iho (Branches.nodup_others hd)
          (fun node page hf => found node page (Branches.find?_cons_of_others hd hf)) _ k

theorem getElem?_chain_zero (t : Tree) : t.chain[0]? = t.root? :=
  Branches.getElem?_follow_zero (some 0) t.pages

theorem getElem?_chain_succ (t : Tree) (k : Nat) :
    t.chain[k + 1]? = t.chain[k]?.bind t.next? :=
  getElem?_follow_succ t t.sound.nodup (fun _ _ h => h) (some 0) k

/-- The page at a place of the chain has a path through the pages before it. -/
theorem exists_leads_of_getElem?_chain {t : Tree} {k node : Nat} (h : t.chain[k]? = some node) :
    ∃ path, t.Leads path node ∧ (∀ step ∈ path, t.IsOpen step.1 step.2) ∧ path.length = k ∧
      path.map Prod.fst = t.chain.take k := by
  induction k generalizing node with
  | zero =>
      rw [getElem?_chain_zero] at h
      exact ⟨[], .root h, nofun, rfl, rfl⟩
  | succ k ih =>
      rw [getElem?_chain_succ] at h
      obtain ⟨before, hk, hnext⟩ := Option.bind_eq_some_iff.1 h
      obtain ⟨path, hp, hopen, hlen, hmap⟩ := ih hk
      obtain ⟨branch, hb, hs⟩ := next?_eq_some_iff.1 hnext
      refine ⟨path ++ [(before, branch)], hp.link hs, ?_, ?_, ?_⟩
      · intro step hstep
        rcases List.mem_append.1 hstep with hstep | hstep
        · exact hopen step hstep
        · rw [List.mem_singleton.1 hstep]
          exact hb
      · rw [List.length_append, hlen, List.length_singleton]
      · rw [List.map_append, hmap, List.take_add_one, hk]
        rfl

/-- A page is in the chain at the end of its path, if every page on the path is done and selects the
link that the path takes. -/
theorem getElem?_chain_of_open {t : Tree} {path : List (Nat × UInt32)} {node : Nat}
    (h : t.Leads path node) (hopen : ∀ step ∈ path, t.IsOpen step.1 step.2) :
    t.chain[path.length]? = some node := by
  induction h with
  | root hr => rw [List.length_nil, getElem?_chain_zero, hr]
  | link h hs ih =>
      have hbefore := ih fun step hstep => hopen step (List.mem_append_left _ hstep)
      have hb := hopen _ (List.mem_append_right _ List.mem_cons_self)
      rw [List.length_append, List.length_singleton, getElem?_chain_succ, hbefore,
        Option.bind_some]
      exact next?_eq_some_iff.2 ⟨_, hb, hs⟩

/-- The place of a page in the chain is the length of its path. -/
theorem place_eq_length {t : Tree} {path : List (Nat × UInt32)} {k node : Nat}
    (hp : t.Leads path node) (h : t.chain[k]? = some node) : k = path.length := by
  obtain ⟨path', hp', -, hlen, -⟩ := exists_leads_of_getElem?_chain h
  rw [hp.unique hp', hlen]

theorem mem_chain_iff {t : Tree} {path : List (Nat × UInt32)} {node : Nat}
    (hp : t.Leads path node) :
    node ∈ t.chain ↔ ∀ step ∈ path, t.IsOpen step.1 step.2 := by
  constructor
  · intro h
    obtain ⟨k, hk⟩ := List.getElem?_of_mem h
    obtain ⟨path', hp', hopen, -, -⟩ := exists_leads_of_getElem?_chain hk
    rw [hp.unique hp']
    exact hopen
  · intro hopen
    exact List.mem_of_getElem? (getElem?_chain_of_open hp hopen)

/-- In trees of one shape a page has one place, whatever their states are. -/
theorem place_eq_of_shape_eq {t u : Tree} (shape : t.pages.shape = u.pages.shape) {j k node : Nat}
    (hj : t.chain[j]? = some node) (hk : u.chain[k]? = some node) : j = k := by
  obtain ⟨path, hp, -, hlen, -⟩ := exists_leads_of_getElem?_chain hj
  rw [← hlen, place_eq_length (hp.of_shape_eq shape) hk]

theorem nodup_chain (t : Tree) : t.chain.Nodup := by
  rw [List.Nodup, List.pairwise_iff_getElem]
  intro i j hi hj hij heq
  have hat : t.chain[i]? = some t.chain[j] := by
    rw [List.getElem?_eq_getElem hi, heq]
  exact absurd (place_eq_of_shape_eq rfl hat (List.getElem?_eq_getElem hj)) (Nat.ne_of_lt hij)

theorem chain_ne_nil_iff {t : Tree} : t.chain ≠ [] ↔ t.isEmpty = false := by
  constructor
  · intro h
    have hat := List.getElem?_eq_getElem (List.length_pos_iff.2 h)
    rw [getElem?_chain_zero] at hat
    exact (root?_eq_some_iff.1 hat).2
  · intro h hnil
    have hroot : t.root? = some 0 := root?_eq_some_iff.2 ⟨rfl, h⟩
    rw [← getElem?_chain_zero, hnil] at hroot
    cases hroot

/-- The chain is a matter of the shape and of the states of the pages. -/
theorem chain_eq_of_states {t u : Tree} (shape : t.pages.shape = u.pages.shape)
    (states : ∀ node, (t.component? node).map Component.state =
      (u.component? node).map Component.state) : t.chain = u.chain := by
  have hnext : ∀ node, t.next? node = u.next? node := by
    intro node
    have key : ∀ v : Tree, v.next? node = ((v.component? node).map Component.state).bind
        fun s => s.branch?.bind (v.successor? node) := by
      intro v
      rw [Option.bind_map]
      rfl
    rw [key, key, states, successor?_eq_of_shape_eq shape]
  apply List.ext_getElem?
  intro k
  induction k with
  | zero => rw [getElem?_chain_zero, getElem?_chain_zero, root?_eq_of_shape_eq shape]
  | succ k ih => rw [getElem?_chain_succ, getElem?_chain_succ, ih, funext hnext]

/-! ### Complete chains -/

theorem isLast_iff {t : Tree} {node : Nat} :
    t.isLast node = true ↔ t.IsDone node ∧ t.next? node = none := by
  cases hf : t.pages.find? node with
  | none => simp [isLast, hf, IsDone, component?]
  | some page =>
      have hc : t.component? node = some page.1 := by
        rw [component?, hf, Option.map_some]
      rw [next?_of_find? hf, isLast, hf]
      cases hs : page.1.state with
      | inactive | ongoing => simp [IsDone, hc, hs, State.branch?, State.isDone]
      | done branch => simp [IsDone, hc, hs, State.branch?, Option.isNone_iff_eq_none]

theorem isDone_of_next? {t : Tree} {node next : Nat} (h : t.next? node = some next) :
    t.IsDone node := by
  obtain ⟨branch, ⟨c, hc, hdone, -⟩, -⟩ := next?_eq_some_iff.1 h
  exact ⟨c, hc, hdone⟩

/-- A chain is complete when there is one and everything in it is done. -/
theorem isComplete_chain_iff (t : Tree) :
    t.isComplete t.chain = true ↔ t.isEmpty = false ∧ ∀ node ∈ t.chain, t.IsDone node := by
  rw [← chain_ne_nil_iff, isComplete]
  cases hl : t.chain.getLast? with
  | none =>
      rw [List.getLast?_eq_none_iff] at hl
      simp [hl]
  | some last =>
      have hlast : t.chain[t.chain.length - 1]? = some last := by
        rw [← List.getLast?_eq_getElem?, hl]
      have hne : t.chain ≠ [] := by
        rintro hnil
        rw [hnil] at hl
        cases hl
      have hpos := List.length_pos_iff.2 hne
      -- The chain ends at its last page because nothing comes after that page.
      have hend : t.next? last = none := by
        have hout : t.chain[t.chain.length - 1 + 1]? = none :=
          List.getElem?_eq_none (by omega)
        rwa [getElem?_chain_succ, hlast, Option.bind_some] at hout
      rw [Option.any_some, isLast_iff]
      constructor
      · rintro ⟨hdone, -⟩
        refine ⟨hne, ?_⟩
        intro node hnode
        obtain ⟨k, hk⟩ := List.getElem?_of_mem hnode
        have hlt := (List.getElem?_eq_some_iff.1 hk).1
        by_cases hkl : k = t.chain.length - 1
        · rw [hkl, hlast] at hk
          cases hk
          exact hdone
        · have hnext : t.chain[k + 1]? = t.next? node := by
            rw [getElem?_chain_succ, hk, Option.bind_some]
          rw [List.getElem?_eq_getElem (by omega)] at hnext
          exact isDone_of_next? hnext.symm
      · rintro ⟨-, hall⟩
        exact ⟨hall last (List.mem_of_getElem? hlast), hend⟩

/-- No page is skipped. Every page has one path from the root, and it is in the chain exactly when
every page on that path is done and selects the link that the path takes. The chain lists the pages in
the order of their paths, each once and at its depth, and it is complete exactly when it is not empty
and all its pages are done. -/
theorem gating (t : Tree) :
    (∀ node, node < t.size ↔
      ∃ path, t.Leads path node ∧ ∀ path', t.Leads path' node → path' = path) ∧
    (∀ path node, t.Leads path node →
      (node ∈ t.chain ↔ ∀ step ∈ path, t.IsOpen step.1 step.2)) ∧
    (∀ k node, t.chain[k]? = some node →
      ∃ path, t.Leads path node ∧ path.length = k ∧ path.map Prod.fst = t.chain.take k) ∧
    t.chain.Nodup ∧
    (t.isComplete t.chain = true ↔ t.isEmpty = false ∧ ∀ node ∈ t.chain, t.IsDone node) := by
  refine ⟨?_, fun _ _ => mem_chain_iff, ?_, t.nodup_chain, t.isComplete_chain_iff⟩
  · intro node
    constructor
    · intro h
      obtain ⟨path, hp⟩ := exists_leads h
      exact ⟨path, hp, fun path' hp' => hp'.unique hp⟩
    · rintro ⟨path, hp, -⟩
      exact hp.lt_size
  · intro k node h
    obtain ⟨path, hp, -, hlen, hmap⟩ := exists_leads_of_getElem?_chain h
    exact ⟨path, hp, hlen, hmap⟩

/-- A page that was left with an outcome, with an ordinary next page and one for the outcome. -/
def forked : Tree :=
  let root := (Component.ofCheckbox "choice" "Which way?").withState (.done 2)
  let grown := ((new root).addBranch 0 0 (.ofText "left" "Left.")).bind fun r =>
    r.1.addBranch 0 2 (.ofCheckbox "right" "Right?")
  (grown.toOption.map Prod.fst).getD empty

theorem gating_forked : 2 ∈ forked.chain ∧ 1 ∉ forked.chain := by
  obtain ⟨-, hmem, -⟩ := gating forked
  have hroot : forked.Leads [] 0 := .root rfl
  constructor
  · apply (hmem [(0, 2)] 2 (hroot.link rfl)).2
    intro step hstep
    rw [List.mem_singleton.1 hstep]
    exact ⟨_, rfl, rfl, rfl⟩
  · intro h
    obtain ⟨c, hc, -, hb⟩ := (hmem [(0, 0)] 1 (hroot.link rfl)).1 h _ List.mem_cons_self
    cases hc
    cases hb

end Tree

end GuidedLab
