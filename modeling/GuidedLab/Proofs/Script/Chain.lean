import GuidedLab.Proofs.Script.Turns
import GuidedLab.Proofs.Tree.Account

/-!
# The chain before and after a change

The chain goes from page to page by the states alone, and it looks at no state of a page that comes
later. So a chain is the beginning of every chain of the same shape in which its pages select what they
selected before (`Tree.chain_isPrefix`): what has been reached stays in place until a page that was passed
selects another branch.

An interaction changes one page. If that page is in the chain, everything up to it stays in place
(`Tree.SameBut.take_chain_eq`). If it is not, the chain does not change at all
(`Tree.SameBut.chain_eq_of_not_mem`), for the page can neither be where the chain ends nor come into it.
-/

namespace GuidedLab

namespace Tree

variable {t u : Tree} {node k : Nat}

/-- Up to the page after which something else comes, chains from one root agree. -/
theorem take_chain_isPrefix (root : t.root? = u.root?) (k : Nat)
    (kept : ∀ node ∈ t.chain.take k, ∀ next, t.next? node = some next → u.next? node = some next) :
    t.chain.take (k + 1) <+: u.chain := by
  have place : ∀ j ≤ k, ∀ node, t.chain[j]? = some node → u.chain[j]? = some node := by
    intro j
    induction j with
    | zero =>
        intro _ node h
        rwa [getElem?_chain_zero, ← root, ← getElem?_chain_zero]
    | succ j ih =>
        intro hj next h
        rw [getElem?_chain_succ] at h ⊢
        obtain ⟨node, hnode, hnext⟩ := Option.bind_eq_some_iff.1 h
        have taken : node ∈ t.chain.take k :=
          List.mem_of_getElem? (List.getElem?_take_of_lt hj ▸ hnode)
        rw [ih (Nat.le_of_succ_le hj) node hnode, Option.bind_some]
        exact kept node taken next hnext
  rw [List.prefix_iff_getElem?]
  intro j hj
  have hle : j ≤ k := by
    rw [List.length_take] at hj
    omega
  rw [List.getElem_take]
  exact place j hle _ (List.getElem?_eq_getElem _)

/-- A chain is the beginning of the chain of every tree of the same shape in which each page of it that is
done selects the branch that it selected. -/
theorem chain_isPrefix (shape : t.pages.shape = u.pages.shape)
    (selects : ∀ node ∈ t.chain, ∀ branch, t.IsOpen node branch → u.IsOpen node branch) :
    t.chain <+: u.chain := by
  have h : t.chain.take (t.chain.length + 1) <+: u.chain := by
    apply take_chain_isPrefix (root?_eq_of_shape_eq shape)
    intro node hnode next hnext
    obtain ⟨branch, hopen, hs⟩ := next?_eq_some_iff.1 hnext
    rw [successor?_eq_of_shape_eq shape] at hs
    exact next?_eq_some_iff.2 ⟨branch, selects node (List.mem_of_mem_take hnode) branch hopen, hs⟩
  rwa [List.take_of_length_le (Nat.le_succ _)] at h

/-- Two trees have one shape and differ in the component of one page at most. -/
structure SameBut (node : Nat) (t u : Tree) : Prop where
  shape : t.pages.shape = u.pages.shape
  others : ∀ other, other ≠ node → t.component? other = u.component? other

namespace SameBut

theorem symm (h : SameBut node t u) : SameBut node u t :=
  ⟨h.shape.symm, fun other ne => (h.others other ne).symm⟩

theorem set (t : Tree) (node : Nat) (c : Component) : SameBut node t (t.set node c) :=
  ⟨(shape_set t node c).symm, fun _ ne => (component?_set_of_ne ne t c).symm⟩

theorem next?_eq (h : SameBut node t u) {other : Nat} (ne : other ≠ node) :
    t.next? other = u.next? other := by
  rw [next?, next?, h.others other ne, successor?_eq_of_shape_eq h.shape]

/-- Where the page is in the chain, the pages up to it stay in place. -/
theorem take_chain_eq (h : SameBut node t u) (hk : t.chain[k]? = some node) :
    u.chain.take (k + 1) = t.chain.take (k + 1) := by
  have hbegins : t.chain.take (k + 1) <+: u.chain := by
    apply take_chain_isPrefix (root?_eq_of_shape_eq h.shape)
    intro other hother next hnext
    -- the page comes once, at place `k`, so it is none of the pages before
    have ne : other ≠ node := by
      rintro rfl
      obtain ⟨j, hj⟩ := List.getElem?_of_mem hother
      rw [List.getElem?_take] at hj
      split at hj
      · next hjk => exact Nat.ne_of_lt hjk (place_eq_of_shape_eq rfl hj hk)
      · cases hj
    rwa [← h.next?_eq ne]
  have hlength : (t.chain.take (k + 1)).length = k + 1 := by
    have hlt := (List.getElem?_eq_some_iff.1 hk).1
    rw [List.length_take]
    omega
  have heq := List.prefix_iff_eq_take.1 hbegins
  rw [hlength] at heq
  exact heq.symm

theorem mem_chain (h : SameBut node t u) (hin : node ∈ t.chain) : node ∈ u.chain := by
  obtain ⟨k, hk⟩ := List.getElem?_of_mem hin
  have taken : node ∈ t.chain.take (k + 1) :=
    List.mem_of_getElem? (List.getElem?_take_of_lt (Nat.lt_succ_self k) ▸ hk)
  rw [← h.take_chain_eq hk] at taken
  exact List.mem_of_mem_take taken

/-- Where the page is not in the chain, the chain is the beginning of the other one. -/
theorem chain_isPrefix_of_not_mem (h : SameBut node t u) (hout : node ∉ t.chain) :
    t.chain <+: u.chain := by
  apply chain_isPrefix h.shape
  rintro other hother branch ⟨c, hc, hopen⟩
  have ne : other ≠ node := fun e => hout (e ▸ hother)
  exact ⟨c, h.others other ne ▸ hc, hopen⟩

/-- Where the page is not in the chain, it is in neither, and each chain is the beginning of the other. -/
theorem chain_eq_of_not_mem (h : SameBut node t u) (hout : node ∉ t.chain) : u.chain = t.chain := by
  have hout' : node ∉ u.chain := fun hin => hout (h.symm.mem_chain hin)
  have hbegins := h.chain_isPrefix_of_not_mem hout
  have hbegins' := h.symm.chain_isPrefix_of_not_mem hout'
  exact hbegins'.eq_of_length_le hbegins.length_le

end SameBut

end Tree

namespace Script

variable {s : Script} {a : Address} {i : Interaction} {changes : List Tree.Change}

/-- An interaction changes the component of the page that it is addressed to. -/
theorem sameBut_interact (h : (s.interact a i).2 = .ok changes) :
    Tree.SameBut a.node s.tree (s.interact a i).1.tree := by
  rcases s.interact_cases a i with ⟨u, reported, hu, hs⟩ | ⟨f, -, hs⟩
  · obtain ⟨c, d, itemChanges, -, -, hset, -⟩ := Tree.respond?_eq_ok_iff.1 hu
    rw [hs, hset]
    exact .set s.tree a.node d
  · rw [hs] at h
    cases h

/-- The chain is stable. In trees of one shape it is the beginning of every chain in which each page of it
that is done still selects its branch. An interaction with a page that is not in the chain leaves the chain
as it was, and one with a page at place `k` leaves the pages up to that place. -/
theorem chain_stable :
    (∀ t u : Tree, t.pages.shape = u.pages.shape →
      (∀ node ∈ t.chain, ∀ branch, t.IsOpen node branch → u.IsOpen node branch) →
        t.chain <+: u.chain) ∧
    ∀ (s : Script) (a : Address) (i : Interaction) (changes : List Tree.Change),
      (s.interact a i).2 = .ok changes →
        (a.node ∉ s.chain → (s.interact a i).1.chain = s.chain) ∧
        ∀ k : Nat, s.chain[k]? = some a.node →
          (s.interact a i).1.chain.take (k + 1) = s.chain.take (k + 1) := by
  constructor
  · intro t u shape selects
    exact Tree.chain_isPrefix shape selects
  · intro s a i changes h
    have same := sameBut_interact h
    exact ⟨same.chain_eq_of_not_mem, fun k hk => same.take_chain_eq hk⟩

/-- In `Tree.forked` the chain goes from the root to page 2. It stays so when page 1 on the other way is
done, its root stays when page 2 is left with an outcome, and as long as the root is ongoing the chain is
the beginning of what it is to be. -/
theorem chain_stable_forked :
    let s := new "Which way?" Tree.forked
    let aside := s.interact (.ofNode 1) (.override (.done 3))
    let left := s.interact (.ofNode 2) (.override (.done 1))
    let waiting := s.interact (.ofNode 0) (.override .ongoing)
    aside.1.chain = [0, 2] ∧ left.1.chain.take 2 = [0, 2] ∧ waiting.1.chain = [0] ∧
      waiting.1.chain <+: s.chain := by
  intro s aside left waiting
  obtain ⟨hbegins, hinteract⟩ := chain_stable
  obtain ⟨haside, -⟩ := hinteract s (.ofNode 1) (.override (.done 3)) _ rfl
  obtain ⟨-, hleft⟩ := hinteract s (.ofNode 2) (.override (.done 1)) _ rfl
  refine ⟨haside (by decide), hleft 1 rfl, rfl, ?_⟩
  apply hbegins waiting.1.tree s.tree (by decide)
  intro node hnode branch hopen
  -- the root is the only page in the chain, and it is not done
  have hroot : node = 0 := List.mem_singleton.1 hnode
  obtain ⟨c, hc, hdone, -⟩ := hopen
  subst hroot
  cases hc
  cases hdone

end Script

end GuidedLab
