import GuidedLab.Tree.Branches
import GuidedLab.Component.Interaction

/-!
# Trees of pages

A tree holds the pages of a script: the root, and after each page the pages that its component may
lead to, one for each branch. Before a script is loaded the tree is empty. Seen from outside, the
root stands on the ordinary branch of nothing, so a tree is `Branches` with at most one page at the
top. Pages are numbered in the order they come into the tree, and the root is number `0`.

Branches of a tree are sound. A tree starts with `new` and grows by `addBranch`, which refuses a page
that does not exist and a branch that is taken.
-/

namespace GuidedLab

/-- The pages of a script. -/
structure Tree where
  pages : Branches Component
  sound : pages.Sound
  rooted : pages.links = [] ∨ pages.links = [(0, 0)]

namespace Tree

instance : DecidableEq Tree := fun t u =>
  decidable_of_iff (t.pages = u.pages) (by cases t; cases u; simp)

/-- The tree without pages. -/
def empty : Tree := ⟨.nil, .nil, Or.inl rfl⟩

instance : Inhabited Tree := ⟨empty⟩

/-- A tree with one page. -/
def new (root : Component) : Tree :=
  ⟨.cons 0 0 root .nil .nil,
    ⟨⟨nofun, trivial, trivial⟩, ⟨Nat.le_refl 0, trivial, trivial⟩, .refl _⟩, Or.inr rfl⟩

/-- Whether there are no pages. -/
def isEmpty (t : Tree) : Bool := t.pages.isEmpty

/-- The number of pages. -/
def size (t : Tree) : Nat := t.pages.size

/-- The number of the root. -/
def root? (t : Tree) : Option Nat := t.pages.link? 0

/-- The component of a page. -/
def component? (t : Tree) (node : Nat) : Option Component := (t.pages.find? node).map Prod.fst

/-- The pages that follow a page, by branch in ascending order. -/
def successors (t : Tree) (node : Nat) : List (UInt32 × Nat) :=
  match t.pages.find? node with
  | some (_, after) => after.links
  | none => []

/-- The page that follows a page on a branch. -/
def successor? (t : Tree) (node : Nat) (branch : UInt32) : Option Nat :=
  (t.pages.find? node).bind fun page => page.2.link? branch

/-- The page that a page follows. -/
def parent? (t : Tree) (node : Nat) : Option Nat := t.pages.parent? node none

/-- The numbers of the pages in pre-order. -/
def preorder (t : Tree) : List Nat := t.pages.nodes

/-- The components of the pages in pre-order. -/
def components (t : Tree) : List Component := t.pages.values

/-- The component at an address. -/
def at? (t : Tree) (a : Address) : Option Component :=
  (t.component? a.node).bind fun c => c.item? a.items

/-- The first page in pre-order whose component has a name. -/
def findByName? (t : Tree) (name : String) : Option Nat :=
  (t.pages.preorder.find? fun page => page.2.name = name).map Prod.fst

/-- The tree with other components, made from their page's number and themselves. -/
def map (f : Nat → Component → Component) (t : Tree) : Tree :=
  ⟨t.pages.map f, (Branches.sound_map f t.pages).2 t.sound, by simpa using t.rooted⟩

/-- The tree with another component on a page. -/
def set (t : Tree) (node : Nat) (c : Component) : Tree :=
  t.map fun n d => if n = node then c else d

/-- The tree with a page put on a branch of another page, and the new page's number. -/
def addBranch (t : Tree) (origin : Nat) (branch : UInt32) (c : Component) :
    Except Fault (Tree × Nat) :=
  match hf : t.pages.find? origin with
  | none => .error (.noSuchNode (.ofNode origin))
  | some (d, after) =>
    match hl : after.links.find? fun l => l.1 = branch with
    | some (_, existing) => .error (.branchTaken d.name existing branch)
    | none =>
      .ok (⟨t.pages.grow origin branch t.size c,
        t.sound.grow hf (fun l h => by simpa using List.find?_eq_none.1 hl l h) c,
        by simpa using t.rooted⟩, t.size)

/-- The tree with a page put next after another, on the ordinary branch. -/
def addNext (t : Tree) (origin : Nat) (c : Component) : Except Fault (Tree × Nat) :=
  t.addBranch origin 0 c

/-- The components of a tree are checked in pre-order, the first fault is told. -/
def check (t : Tree) : Except Fault Unit :=
  if t.isEmpty then .error .notLoaded else Component.checkItems t.components

/-- A state that the component at an address has taken. -/
structure Change where
  address : Address
  state : State
deriving DecidableEq, Repr

/-- The change of an item as a change in the tree. -/
def Change.ofItem (node : Nat) (change : ItemChange) : Change :=
  ⟨⟨node, change.items⟩, change.state⟩

/-- The tree after an interaction with the component at an address, and the changes. -/
def respond? (t : Tree) (a : Address) (i : Interaction) : Except Fault (Tree × List Change) :=
  match t.component? a.node with
  | none => .error (if t.isEmpty then .notLoaded else .noSuchNode a)
  | some c =>
    (c.respond? i a.items).map fun (d, changes) => (t.set a.node d, changes.map (.ofItem a.node))

theorem ext {t u : Tree} (h : t.pages = u.pages) : t = u := by
  cases t; cases u; cases h; rfl

@[simp] theorem size_map (f : Nat → Component → Component) (t : Tree) : (t.map f).size = t.size :=
  Branches.size_map f t.pages

@[simp] theorem size_set (t : Tree) (node : Nat) (c : Component) : (t.set node c).size = t.size :=
  size_map _ t

@[simp] theorem preorder_map (f : Nat → Component → Component) (t : Tree) :
    (t.map f).preorder = t.preorder :=
  Branches.nodes_map f t.pages

/-- The pages of a tree are numbered from zero without a gap. -/
theorem component?_isSome_iff {t : Tree} {node : Nat} :
    (t.component? node).isSome = true ↔ node < t.size := by
  rw [component?, Option.isSome_map, Branches.find?_isSome_iff, t.sound.mem_nodes_iff, size]

end Tree

end GuidedLab
