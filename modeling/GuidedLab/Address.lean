/-!
# Addresses

A component is addressed by the page it is on and by the item positions that lead into nested sheets:
no position addresses the page's component itself. Pages are numbered in the order they came into
the tree. An address is written `#1.0.2`.
-/

namespace GuidedLab

/-- The number of a page and the positions that lead to an item. -/
structure Address where
  node : Nat
  items : List Nat
deriving DecidableEq, Repr

namespace Address

/-- The address of a page's component. -/
def ofNode (node : Nat) : Address := ⟨node, []⟩

/-- Whether a page's component itself is addressed. -/
def isNode (a : Address) : Bool := a.items.isEmpty

/-- The number of a page as it is written. -/
def nodeText (node : Nat) : String := "#" ++ Nat.repr node

/-- The address as it is written. -/
def text (a : Address) : String :=
  a.items.foldl (fun s i => s ++ "." ++ Nat.repr i) (nodeText a.node)

@[simp] theorem isNode_ofNode (node : Nat) : (ofNode node).isNode = true := rfl

@[simp] theorem text_ofNode (node : Nat) : (ofNode node).text = nodeText node := rfl

/-- Two addresses on one page differ in the positions. -/
theorem items_ne {a b : Address} (ne : a ≠ b) (page : a.node = b.node) : a.items ≠ b.items := by
  intro items
  cases a
  cases b
  cases page
  cases items
  exact ne rfl

end Address

end GuidedLab
