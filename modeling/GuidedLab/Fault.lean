import GuidedLab.Address

/-!
# Faults of a script

What can go wrong in a script, by cause: each constructor carries what its message names and nothing
else. The wording is in one place, `message`. Causes that concern the same thing are worded alike: a
component that does not exist, whichever step of an address fails, and a tree that would not be a
tree.
-/

namespace GuidedLab

/-- Why an operation on a script is refused. -/
inductive Fault where
  /-- There is no script to work on. -/
  | notLoaded
  /-- A graph is bound to no experiment. -/
  | graphWithoutExperiment (component : String)
  /-- The saved state belongs to another structure. -/
  | incompatible
  /-- There is no saved state for a position of the tree. -/
  | noSavedState (position : Nat)
  /-- A saved component lacks a key. -/
  | missingKey (component key : String)
  /-- A saved or given value does not fit its key. -/
  | invalidValue (component key : String)
  /-- An address names a page that does not exist. -/
  | noSuchNode (address : Address)
  /-- A sheet has no item at a position. -/
  | noSuchItem (index : Nat)
  /-- An item is sought in a component without items. -/
  | notASheet (index : Nat) (component : String)
  /-- There is no saved state for an item of a sheet. -/
  | noSavedItem (component : String) (index : Nat)
  /-- A component does not take an interaction. -/
  | unsupported (component interaction : String)
  /-- A branch of a component is taken already. -/
  | branchTaken (component : String) (existing : Nat) (branch : UInt32)
  /-- The structure breaks a rule given in words. -/
  | malformed (rule : String)
deriving DecidableEq, Repr

namespace Fault

/-- The fault in words. -/
def message : Fault → String
  | .notLoaded => "script is not loaded"
  | .graphWithoutExperiment component => s!"In Component \"{component}\": no experiment data"
  | .incompatible => "Script has been updated and is now incompatible to the saved state."
  | .noSavedState position =>
    s!"Script component state can't be restored (no state for component {position})."
  | .missingKey component key => s!"component \"{component}\": missing required key '{key}'"
  | .invalidValue component key => s!"component \"{component}\": invalid value for '{key}'"
  | .noSuchNode address => s!"unknown component {address.text}"
  | .noSuchItem index => s!"unknown component item {index}"
  | .notASheet index component => s!"unknown component item {index} of \"{component}\""
  | .noSavedItem component index =>
    s!"unknown component \"{component}\" (no saved state for item {index})"
  | .unsupported component interaction =>
    s!"component \"{component}\" does not accept {interaction}"
  | .branchTaken component existing branch =>
    s!"invalid script structure: \"{component}\" already continues with {Address.nodeText existing} on branch {branch.toNat}"
  | .malformed rule => s!"invalid script structure: {rule}"

end Fault

end GuidedLab
