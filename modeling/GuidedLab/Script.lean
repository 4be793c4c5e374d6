import GuidedLab.Tree.Chain
import GuidedLab.Tree.Snapshot

/-!
# Scripts

A script is a titled tree at run time. It remembers in words what went wrong last, and it serves one
listener. Subscribing hands out a subscription and makes it the served one; ending a subscription
stops service only if that very subscription is served. So of several subscriptions the latest is
served, and an earlier one never comes back.

Every operation is a function from a script to a script and an answer. A refused operation changes
nothing but `lastError`. The changes that an operation answers are also what the served listener is
told, with the tree as it is after the operation (`deliveries`).
-/

namespace GuidedLab

/-- A titled tree and what goes with it at run time. -/
structure Script where
  title : String
  tree : Tree
  /-- Where the files of the run are. -/
  directory : Option Path
  /-- The last fault in words, empty if there was none. -/
  lastError : String
  /-- The number of subscriptions handed out. -/
  subscriptions : Nat
  /-- The subscription that is served. -/
  served : Option Nat
deriving DecidableEq

/-- What a listener is told: a change and the tree after the operation that caused it. -/
structure Delivery where
  subscription : Nat
  change : Tree.Change
  tree : Tree
deriving DecidableEq

namespace Script

/-- A script of a title and a tree, without a listener. -/
def new (title : String) (tree : Tree) : Script := ⟨title, tree, none, "", 0, none⟩

/-- A script that is not loaded. -/
def unloaded : Script := new "" .empty

instance : Inhabited Script := ⟨unloaded⟩

/-- Whether there is a tree. -/
def isLoaded (s : Script) : Bool := !s.tree.isEmpty

/-- The script that remembers a fault, if the answer is one. -/
def remembering {α : Type} (s : Script) : Except Fault α → Script
  | .ok _ => s
  | .error f => { s with lastError := f.message }

/-- A new subscription, which is served from now on. -/
def subscribe (s : Script) : Script × Nat :=
  let n := s.subscriptions + 1
  ({ s with subscriptions := n, served := some n }, n)

/-- The script without service for a subscription. -/
def unsubscribe (s : Script) (subscription : Nat) : Script :=
  if s.served = some subscription then { s with served := none } else s

/-- What is delivered of the changes that led to this script. -/
def deliveries (s : Script) (changes : List Tree.Change) : List Delivery :=
  match s.served with
  | none => []
  | some n => changes.map fun change => ⟨n, change, s.tree⟩

/-- Whether all components are well configured. -/
def check (s : Script) : Script × Except Fault Unit :=
  let r := s.tree.check
  (s.remembering r, r)

/-- An interaction with the component at an address, and the changes it made. -/
def interact (s : Script) (a : Address) (i : Interaction) :
    Script × Except Fault (List Tree.Change) :=
  match s.tree.respond? a i with
  | .ok (tree, changes) => ({ s with tree }, .ok changes)
  | .error f => ({ s with lastError := f.message }, .error f)

/-- An interaction that overrides the state of the component at an address. -/
def override (s : Script) (a : Address) (state : State) :
    Script × Except Fault (List Tree.Change) :=
  s.interact a (.override state)

/-- The root is made ongoing, and the change is told. Nothing is started if there is no root or it is
past that state already. -/
def start (s : Script) : Script × Option (List Tree.Change) :=
  match s.tree.component? 0 with
  | none => (s, none)
  | some c =>
    if c.state.le .ongoing then
      ({ s with tree := s.tree.set 0 (c.withState .ongoing) },
        some ((Component.changed c.state .ongoing).map (.ofItem 0)))
    else (s, none)

/-- The pages that the learner may see. -/
def chain (s : Script) : List Nat := s.tree.chain

/-- Whether the learner has nothing left to do. -/
def isComplete (s : Script) : Bool := s.tree.isComplete s.chain

/-- The archive with a snapshot of the script. -/
def save (s : Script) (a : Archive) : Script × Except Fault Archive :=
  let r := s.tree.savedInto a
  (s.remembering r, r)

/-- The script with its states taken from a snapshot. -/
def load (s : Script) (a : Archive) : Script × Except Fault Unit :=
  match s.tree.restored? a with
  | .ok tree => ({ s with tree }, .ok ())
  | .error f => ({ s with lastError := f.message }, .error f)

@[simp] theorem remembering_ok {α : Type} (s : Script) (x : α) :
    s.remembering (.ok x) = s := rfl

@[simp] theorem remembering_error {α : Type} (s : Script) (f : Fault) :
    s.remembering (.error f : Except Fault α) = { s with lastError := f.message } := rfl

@[simp] theorem deliveries_nil (s : Script) : s.deliveries [] = [] := by
  rw [deliveries]
  split <;> rfl

end Script

end GuidedLab
