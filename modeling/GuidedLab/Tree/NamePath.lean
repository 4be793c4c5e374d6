import GuidedLab.Tree.Basic
import GuidedLab.Text.Split

/-!
# Name paths

A component is also known by names: the name of its page's component and the names of the items that
lead to it, with a slash between each two, as in `Measure/period`. Names are unique among pages and
among the items of a sheet in every script that is loaded, so a name path leads to one component.
Read back, empty segments do not count, and where names are not unique the first of a name is meant.
-/

namespace GuidedLab

namespace Component

/-- The names from a component down a row of positions. -/
def names? (c : Component) : List Nat → Option (List String)
  | [] => some [c.name]
  | i :: rest => c.items[i]?.bind fun d => (d.names? rest).map (c.name :: ·)

/-- The positions that names lead down, the first item of each name. -/
def positions? (c : Component) : List String → Option (List Nat)
  | [] => some []
  | name :: rest => do
    let i ← c.items.findIdx? fun d => d.name = name
    let d ← c.items[i]?
    (d.positions? rest).map (i :: ·)

end Component

namespace Tree

/-- The name path of an address. -/
def namePath? (t : Tree) (a : Address) : Option String :=
  (t.component? a.node).bind fun c => (c.names? a.items).map (Text.join '/')

/-- The segments of a name path. -/
def segments (path : String) : List String :=
  (Text.split '/' path).filter fun s => s ≠ ""

/-- The address that a name path leads to. -/
def resolve? (t : Tree) (path : String) : Option Address :=
  match segments path with
  | [] => none
  | name :: rest => do
    let node ← t.findByName? name
    let c ← t.component? node
    (c.positions? rest).map fun items => ⟨node, items⟩

end Tree

end GuidedLab
