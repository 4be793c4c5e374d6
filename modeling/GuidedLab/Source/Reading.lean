import GuidedLab.Source.Draft
import GuidedLab.Source.Schema

/-!
# Reading a draft

The draft that a settled JSON value spells. Of a value in the form of a script everything can be read
but an outcome that is no branch: a branch is a number of 32 bits and is written as a plain integer,
so a whole number with a fraction or an exponent, or a larger one, is in form and still not read.
-/

namespace GuidedLab.Source

open Json (Value)

/-- The text under a name. -/
def text? (name : String) (members : Schema.Members) : Option String :=
  match Value.member? name members with
  | some (.string s) => some s
  | _ => none

/-- The text under a name, if there is one; a value of another kind is not read. -/
def optionalText? (name : String) (members : Schema.Members) : Option (Option String) :=
  match Value.member? name members with
  | none => some none
  | some (.string s) => some (some s)
  | _ => none

/-- The truth value under a name, false if there is none. -/
def truth? (name : String) (members : Schema.Members) : Option Bool :=
  match Value.member? name members with
  | none => some false
  | some (.bool b) => some b
  | _ => none

/-- The branch under a name. -/
def branch? (name : String) (members : Schema.Members) : Option UInt32 :=
  match Value.member? name members with
  | some (.number (.integer n)) =>
    if 0 ≤ n ∧ n < UInt32.size then some (UInt32.ofNat n.toNat) else none
  | _ => none

/-- The layout of a sheet, vertical if none is given. -/
def orientation? (members : Schema.Members) : Option Orientation :=
  (optionalText? "orientation" members).bind fun
    | none => some .vertical
    | some s =>
      if s = "vertical" then some .vertical else if s = "horizontal" then some .horizontal else none

/-- The graph that members spell. -/
def graph? (members : Schema.Members) : Option GraphDraft := do
  let title ← optionalText? "title" members
  let xAxis ← text? "x_axis" members
  let yAxis ← text? "y_axis" members
  let experiment ← optionalText? "experiment" members
  return ⟨title, xAxis, yAxis, experiment⟩

/-- The element of a kind that members spell. -/
def element? (kind : String) (members : Schema.Members) : Option ElementDraft :=
  if kind = "text" then (text? "text" members).map (.text .normal)
  else if kind = "header" then (text? "text" members).map (.text .header)
  else if kind = "question" then (text? "text" members).map .question
  else if kind = "checkbox_question" then (text? "text" members).map .checkbox
  else if kind = "text_question" then do
    let text ← text? "text" members
    let optional ← truth? "optional" members
    return .textQuestion text optional
  else if kind = "experiment" then do
    let sensor ← (text? "sensor" members).bind Sensor.ofName?
    let description ← optionalText? "description" members
    return .experiment sensor (description.getD "")
  else if kind = "graph" then (graph? members).map .graph
  else if kind = "export" then some .export
  else none

mutual

/-- The component that a value spells. -/
def component? : Value → Option ComponentDraft
  | .object members => do
    let kind ← Schema.kind? members
    let name ← text? "name" members
    if kind = "sheet" then
      let orientation ← orientation? members
      let items ← items? members
      return .sheet name orientation items
    else (element? kind members).map (.leaf name)
  | _ => none

/-- The items that members spell. -/
def items? : List (String × Value) → Option (List ComponentDraft)
  | [] => none
  | (k, v) :: rest => if k = "items" then componentArray? v else items? rest

/-- The components that an array spells. -/
def componentArray? : Value → Option (List ComponentDraft)
  | .array items => components? items
  | _ => none

/-- The components that values spell. -/
def components? : List Value → Option (List ComponentDraft)
  | [] => some []
  | v :: rest => do
    let c ← component? v
    let cs ← components? rest
    return c :: cs

end

mutual

/-- The pages that a value spells. -/
def pages? : Value → Option Pages
  | .array pages => pageList? pages
  | _ => none

/-- The pages that values spell. -/
def pageList? : List Value → Option Pages
  | [] => some .nil
  | v :: rest => do
    let page ← page? v
    let pages ← pageList? rest
    return .cons page.1 page.2 pages

/-- The component of a page and the outcomes that a value spells. -/
def page? : Value → Option (ComponentDraft × Outcomes)
  | .object members => do
    let component ← (Value.member? "component" members).bind component?
    let outcomes ← outcomes? members
    return (component, outcomes)
  | _ => none

/-- The outcomes that the members of a page spell, none if there are no branches. -/
def outcomes? : List (String × Value) → Option Outcomes
  | [] => some .nil
  | (k, v) :: rest => if k = "branches" then outcomeArray? v else outcomes? rest

/-- The outcomes that an array spells. -/
def outcomeArray? : Value → Option Outcomes
  | .array branches => outcomeList? branches
  | _ => none

/-- The outcomes that values spell. -/
def outcomeList? : List Value → Option Outcomes
  | [] => some .nil
  | v :: rest => do
    let outcome ← outcome? v
    let outcomes ← outcomeList? rest
    return .cons outcome.1 outcome.2 outcomes

/-- The branch and the pages of an outcome that a value spells. -/
def outcome? : Value → Option (UInt32 × Pages)
  | .object members => do
    let branch ← branch? "outcome" members
    let pages ← pagesUnder? members
    return (branch, pages)
  | _ => none

/-- The pages that the members of an outcome spell. -/
def pagesUnder? : List (String × Value) → Option Pages
  | [] => none
  | (k, v) :: rest => if k = "pages" then pages? v else pagesUnder? rest

end

/-- The draft that a value spells. -/
def Draft.ofJson? : Value → Option Draft
  | .object members => do
    let title ← text? "title" members
    let pages ← (Value.member? "pages" members).bind pages?
    return ⟨title, pages⟩
  | _ => none

end GuidedLab.Source
