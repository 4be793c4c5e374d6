import GuidedLab.Tree.Basic

/-!
# The active chain

The active chain are the pages the learner may see. It starts at the root and goes on from a page
whose component is done to the page on the branch that the state selects; it ends at the first page
that is not done or that has no page on its branch. It follows from the states alone, so it is
computed anew whenever it is asked for.

A chain is *complete* when its last page is done and leads nowhere.
-/

namespace GuidedLab

/-- The pages met from a place on, if the place goes on with a branch. -/
def Branches.follow (branch? : Option UInt32) : Branches Component → List Nat
  | .nil => []
  | .cons b n c after others =>
    if branch? = some b then n :: after.follow c.state.branch? else others.follow branch?

namespace Tree

/-- The pages that the learner may see. -/
def chain (t : Tree) : List Nat := t.pages.follow (some 0)

/-- Whether a page is done and leads nowhere. -/
def isLast (t : Tree) (node : Nat) : Bool :=
  match t.pages.find? node with
  | none => false
  | some (c, after) =>
    match c.state.branch? with
    | none => false
    | some b => (after.link? b).isNone

/-- Whether nothing is left to do on a chain. -/
def isComplete (t : Tree) (chain : List Nat) : Bool :=
  chain.getLast?.any t.isLast

end Tree

@[simp] theorem Branches.follow_none (t : Branches Component) : t.follow none = [] := by
  induction t with
  | nil => rfl
  | cons b n c after others _ iho => simp [follow, iho]

end GuidedLab
