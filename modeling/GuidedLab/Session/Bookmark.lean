import GuidedLab.Tree.Chain

/-!
# Bookmarks

A bookmark is the active chain and the place in it that the learner looks at. When the chain changes,
the page at that place stays selected as long as it is in the chain; otherwise the last page is
selected.
-/

namespace GuidedLab

/-- The active chain and a place in it. -/
structure Bookmark where
  chain : List Nat
  current : Nat
deriving DecidableEq, Repr

namespace Bookmark

/-- No page at all. -/
def empty : Bookmark := ⟨[], 0⟩

/-- The page that is selected. -/
def page? (b : Bookmark) : Option Nat := b.chain[b.current]?

/-- The bookmark in the chain of a tree. -/
def refreshed (b : Bookmark) (t : Tree) : Bookmark :=
  let chain := t.chain
  ⟨chain, (b.page?.bind fun node => chain.idxOf? node).getD (chain.length - 1)⟩

/-- The bookmark at a place, or at the last one if there is no such place. -/
def moved (b : Bookmark) (place : Nat) : Bookmark :=
  { b with current := min place (b.chain.length - 1) }

@[simp] theorem chain_refreshed (b : Bookmark) (t : Tree) : (b.refreshed t).chain = t.chain := rfl

@[simp] theorem chain_moved (b : Bookmark) (place : Nat) : (b.moved place).chain = b.chain := rfl

/-- A moved bookmark is at a place of its chain, if there is one. -/
theorem current_moved_lt {b : Bookmark} (h : b.chain ≠ []) (place : Nat) :
    (b.moved place).current < (b.moved place).chain.length := by
  have := List.length_pos_iff.2 h
  simp only [moved]
  omega

end Bookmark

end GuidedLab
