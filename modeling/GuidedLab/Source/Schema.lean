import GuidedLab.Json.Value
import GuidedLab.Component.Basic

/-!
# The form of a written script

`isScript` says which JSON values have the form of a script. An object of the script, of a page or of
an outcome has the members of its form and no other. A component has a kind and a name and the
members that its kind asks for; what else it has does not matter. Names are not empty and have no
slash, and an outcome is a whole number from one on, however it is written.

The form is stated of settled values, in which a name occurs once. Where a part of the form lies under
a name, the walk over the members comes to it by itself, so all of it recurses on the value.
-/

namespace GuidedLab.Source.Schema

open Json (Value)

/-- A text. -/
def isText : Value → Bool
  | .string _ => true
  | _ => false

/-- A text that is not empty. -/
def isFilled : Value → Bool
  | .string s => !s.isEmpty
  | _ => false

/-- A text that can name a component. -/
def isName : Value → Bool
  | .string s => !s.isEmpty && !s.toList.contains '/'
  | _ => false

/-- A truth value. -/
def isTruth : Value → Bool
  | .bool _ => true
  | _ => false

/-- An array, whatever its items are. -/
def isArray : Value → Bool
  | .array _ => true
  | _ => false

/-- One of several texts. -/
def isOneOf (texts : List String) : Value → Bool
  | .string s => texts.contains s
  | _ => false

/-- A whole number from one on. -/
def isOutcome : Value → Bool
  | .number (.integer n) => 1 ≤ n
  | .number (.real negative size) => !negative && size.den = 1 && 1 ≤ size
  | _ => false

/-- Members of an object. -/
abbrev Members := List (String × Value)

/-- There is a member of a name, and it is of a form. -/
def requires (name : String) (form : Value → Bool) (members : Members) : Bool :=
  (Value.member? name members).any form

/-- If there is a member of a name, it is of a form. -/
def allows (name : String) (form : Value → Bool) (members : Members) : Bool :=
  (Value.member? name members).all form

/-- No member has a name besides the given ones. -/
def onlyNamed (names : List String) (members : Members) : Bool :=
  members.all fun m => names.contains m.1

/-- The kinds that ask for a text and nothing else. -/
def textKinds : List String := ["text", "header", "question", "checkbox_question"]

/-- The texts for the layout of a sheet. -/
def orientations : List String := ["vertical", "horizontal"]

/-- What the members of a component of a kind have to be, the items of a sheet apart. -/
def fits (kind : String) (members : Members) : Bool :=
  if textKinds.contains kind then requires "text" isText members
  else if kind = "text_question" then
    requires "text" isText members && allows "optional" isTruth members
  else if kind = "experiment" then
    requires "sensor" (isOneOf (Sensor.all.map Sensor.name)) members &&
      allows "description" isText members
  else if kind = "graph" then
    allows "title" isText members && requires "x_axis" isFilled members &&
      requires "y_axis" isFilled members && allows "experiment" isName members
  else if kind = "sheet" then
    requires "items" isArray members && allows "orientation" (isOneOf orientations) members
  else kind = "export"

/-- The kind that the members of a component name. -/
def kind? (members : Members) : Option String :=
  match Value.member? "type" members with
  | some (.string kind) => some kind
  | _ => none

mutual

/-- A component. -/
def isComponent : Value → Bool
  | .object members =>
    requires "name" isName members &&
      (kind? members).any fun kind =>
        fits kind members && (kind ≠ "sheet" || itemsAreComponents members)
  | _ => false

/-- Whatever stands under the name of the items is an array of components. -/
def itemsAreComponents : List (String × Value) → Bool
  | [] => true
  | (k, v) :: rest => (k ≠ "items" || isComponentArray v) && itemsAreComponents rest

/-- An array of components. -/
def isComponentArray : Value → Bool
  | .array items => areComponents items
  | _ => false

/-- Components only. -/
def areComponents : List Value → Bool
  | [] => true
  | v :: rest => isComponent v && areComponents rest

end

mutual

/-- Pages, at least one. -/
def isPages : Value → Bool
  | .array pages => !pages.isEmpty && arePages pages
  | _ => false

/-- Pages only. -/
def arePages : List Value → Bool
  | [] => true
  | v :: rest => isPage v && arePages rest

/-- A page. -/
def isPage : Value → Bool
  | .object members =>
    onlyNamed ["component", "branches"] members && requires "component" isComponent members &&
      branchesAreBranches members
  | _ => false

/-- Whatever stands under the name of the branches is an array of branches. -/
def branchesAreBranches : List (String × Value) → Bool
  | [] => true
  | (k, v) :: rest => (k ≠ "branches" || isBranchArray v) && branchesAreBranches rest

/-- An array of branches. -/
def isBranchArray : Value → Bool
  | .array branches => areBranches branches
  | _ => false

/-- Branches only. -/
def areBranches : List Value → Bool
  | [] => true
  | v :: rest => isBranch v && areBranches rest

/-- A branch. -/
def isBranch : Value → Bool
  | .object members =>
    onlyNamed ["outcome", "pages"] members && requires "outcome" isOutcome members &&
      Value.hasMember "pages" members && pagesArePages members
  | _ => false

/-- Whatever stands under the name of the pages is an array of pages. -/
def pagesArePages : List (String × Value) → Bool
  | [] => true
  | (k, v) :: rest => (k ≠ "pages" || isPages v) && pagesArePages rest

end

/-- A script. -/
def isScript : Value → Bool
  | .object members =>
    onlyNamed ["title", "pages"] members && requires "title" isFilled members &&
      requires "pages" isPages members
  | _ => false

end GuidedLab.Source.Schema
