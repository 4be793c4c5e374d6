import GuidedLab.Proofs.Tree.Chain

/-!
# The main line

The main line of a tree goes from the root along ordinary branches as far as they lead. It is a matter
of the shape alone, and where every page is plainly done it is the chain (`mainLine_eq_chain`). Where
no page has an outcome, the chain can only stop early on the main line (`chain_isPrefix_mainLine`),
and it is complete exactly when the main line is done (`isComplete_iff_mainLine`).
-/

namespace GuidedLab

namespace Branches

variable {α β : Type}

/-- The pages met from a place on along ordinary branches. -/
def mainLine : Branches α → List Nat
  | nil => []
  | cons b n _ after others => if b = 0 then n :: after.mainLine else others.mainLine

theorem mainLine_cons (b : UInt32) (n : Nat) (v : α) (after others : Branches α) :
    (cons b n v after others).mainLine =
      if b = 0 then n :: after.mainLine else others.mainLine := rfl

@[simp] theorem mainLine_map (f : Nat → α → β) (t : Branches α) :
    (t.map f).mainLine = t.mainLine := by
  induction t with
  | nil => rfl
  | cons b n v after others iha iho =>
      rw [map, mainLine_cons, mainLine_cons, iha, iho]

/-- Where every page is plainly done, pages are met along ordinary branches. -/
theorem follow_plainlyDone (t : Branches Component) :
    (t.map fun _ c => c.withState .plainlyDone).follow (some 0) = t.mainLine := by
  induction t with
  | nil => rfl
  | cons b n c after others iha iho =>
      rw [map, follow_cons, mainLine_cons, Component.state_withState, State.branch?, iha, iho]
      by_cases hb : b = 0
      · rw [if_pos hb, if_pos (congrArg some hb.symm)]
      · rw [if_neg hb, if_neg fun h => hb (Option.some.inj h).symm]

/-- Where no page has an outcome, ordinary branches are followed. -/
theorem follow_isPrefix_mainLine {t : Branches Component}
    (plain : ∀ c ∈ t.values, ∀ branch, c.state.branch? = some branch → branch = 0) :
    t.follow (some 0) <+: t.mainLine := by
  induction t with
  | nil => exact List.prefix_refl _
  | cons b n c after others iha iho =>
      rw [values_cons] at plain
      rw [follow_cons, mainLine_cons]
      by_cases hb : b = 0
      · rw [if_pos (congrArg some hb.symm), if_pos hb, List.prefix_cons_inj]
        cases hc : c.state.branch? with
        | none =>
            rw [follow_none]
            exact List.nil_prefix
        | some branch =>
            rw [plain c List.mem_cons_self branch hc]
            exact iha fun d hd => plain d (List.mem_cons_of_mem _ (List.mem_append_left _ hd))
      · rw [if_neg fun h => hb (Option.some.inj h).symm, if_neg hb]
        exact iho fun d hd => plain d (List.mem_cons_of_mem _ (List.mem_append_right _ hd))

end Branches

namespace Tree

/-- The pages that are reached from the root by ordinary branches, in order. -/
def mainLine (t : Tree) : List Nat := t.pages.mainLine

/-- No page has an outcome: what is done is plainly done. -/
def IsPlain (t : Tree) : Prop :=
  ∀ c ∈ t.components, ∀ branch, c.state.branch? = some branch → branch = 0

theorem mainLine_eq_of_shape_eq {t u : Tree} (shape : t.pages.shape = u.pages.shape) :
    t.mainLine = u.mainLine := by
  have key : ∀ v : Tree, v.mainLine = v.pages.shape.mainLine :=
    fun v => (Branches.mainLine_map _ v.pages).symm
  rw [key, key, shape]

/-- The main line is the chain of the tree with every page plainly done. -/
theorem mainLine_eq_chain (t : Tree) :
    t.mainLine = (t.map fun _ c => c.withState .plainlyDone).chain :=
  (Branches.follow_plainlyDone t.pages).symm

/-- The main line starts with the root. -/
theorem getElem?_mainLine_zero (t : Tree) : t.mainLine[0]? = t.root? := by
  rw [mainLine_eq_chain, getElem?_chain_zero]
  exact root?_eq_of_shape_eq (Branches.shape_map _ t.pages)

/-- After a page of the main line comes the one on its ordinary branch. -/
theorem getElem?_mainLine_succ (t : Tree) (k : Nat) :
    t.mainLine[k + 1]? = t.mainLine[k]?.bind fun node => t.successor? node 0 := by
  rw [mainLine_eq_chain, getElem?_chain_succ]
  congr 1
  funext node
  have hsame : (t.map fun _ c => c.withState .plainlyDone).successor? node = t.successor? node :=
    successor?_eq_of_shape_eq (Branches.shape_map _ t.pages) node
  rw [next?, component?_map, hsame]
  cases hc : t.component? node with
  | none =>
      cases hf : t.pages.find? node with
      | none => rw [successor?, hf]; rfl
      | some page =>
          rw [component?, hf] at hc
          cases hc
  | some c =>
      rw [Option.map_some, Option.bind_some, Component.state_withState]
      rfl

/-- The pages of the main line are those that ordinary branches lead to. -/
theorem mem_mainLine_iff {t : Tree} {node : Nat} :
    node ∈ t.mainLine ↔ ∃ path, t.Leads path node ∧ ∀ step ∈ path, step.2 = 0 := by
  constructor
  · intro h
    obtain ⟨k, hk⟩ := List.getElem?_of_mem h
    induction k generalizing node with
    | zero =>
        rw [getElem?_mainLine_zero] at hk
        exact ⟨[], .root hk, nofun⟩
    | succ k ih =>
        rw [getElem?_mainLine_succ] at hk
        obtain ⟨before, hbefore, hs⟩ := Option.bind_eq_some_iff.1 hk
        obtain ⟨path, hp, hzero⟩ := ih (List.mem_of_getElem? hbefore) hbefore
        refine ⟨path ++ [(before, 0)], hp.link hs, ?_⟩
        intro step hstep
        rcases List.mem_append.1 hstep with hstep | hstep
        · exact hzero step hstep
        · rw [List.mem_singleton.1 hstep]
  · rintro ⟨path, hp, hzero⟩
    suffices hat : t.mainLine[path.length]? = some node from List.mem_of_getElem? hat
    induction hp with
    | root hr => rw [List.length_nil, getElem?_mainLine_zero, hr]
    | @link path node next branch _ hs ih =>
        have hbranch : branch = 0 := hzero (node, branch) (List.mem_append_right _ List.mem_cons_self)
        subst hbranch
        rw [List.length_append, List.length_singleton, getElem?_mainLine_succ,
          ih fun step hstep => hzero step (List.mem_append_left _ hstep), Option.bind_some, hs]

/-- Where no page has an outcome, the chain is an initial part of the main line. -/
theorem chain_isPrefix_mainLine {t : Tree} (plain : t.IsPlain) : t.chain <+: t.mainLine :=
  Branches.follow_isPrefix_mainLine plain

/-- Where no page has an outcome, the chain is complete when there is a main line and all its pages are
done. -/
theorem isComplete_iff_mainLine {t : Tree} (plain : t.IsPlain) :
    t.isComplete t.chain = true ↔ t.isEmpty = false ∧ ∀ node ∈ t.mainLine, t.IsDone node := by
  rw [isComplete_chain_iff]
  apply and_congr_right
  intro _
  constructor
  · intro h node hnode
    obtain ⟨path, hp, hzero⟩ := mem_mainLine_iff.1 hnode
    -- Every page on the path is done, so the chain goes along with it.
    suffices hin : node ∈ t.chain from h node hin
    clear hnode
    induction hp with
    | root hr =>
        apply List.mem_of_getElem? (i := 0)
        rw [getElem?_chain_zero, hr]
    | @link path node next branch hp hs ih =>
        have hbefore := ih fun step hstep => hzero step (List.mem_append_left _ hstep)
        have hbranch : branch = 0 := hzero (node, branch) (List.mem_append_right _ List.mem_cons_self)
        obtain ⟨c, hc, hdone⟩ := h node hbefore
        obtain ⟨b, hb⟩ := Option.isSome_iff_exists.1 (c.state.isDone_iff_branch?.1 hdone)
        have hzero' : b = 0 := plain c (mem_components_iff.2 ⟨node, hc⟩) b hb
        rw [mem_chain_iff (hp.link hs)]
        intro step hstep
        rcases List.mem_append.1 hstep with hstep | hstep
        · exact (mem_chain_iff hp).1 hbefore step hstep
        · rw [List.mem_singleton.1 hstep, hbranch, ← hzero']
          exact ⟨c, hc, hdone, hb⟩
  · intro h node hnode
    exact h node ((chain_isPrefix_mainLine plain).subset hnode)

end Tree

end GuidedLab
