import GuidedLab.Component.Element
import GuidedLab.Component.Basic

/-!
# Drafts

A draft is a script as its author writes it, before anything in it is looked up: axes and experiments
are still names. The pages of a draft follow one another, and each page may have *outcomes*, which
are page sequences of their own. So pages and outcomes are two types that are defined together, and
what runs over a draft is a pair of functions.
-/

namespace GuidedLab.Source

/-- A graph as written. -/
structure GraphDraft where
  title : Option String
  xAxis : String
  yAxis : String
  experiment : Option String
deriving DecidableEq, Repr

/-- An element as written. -/
inductive ElementDraft where
  | text (style : TextStyle) (content : String)
  | question (content : String)
  | checkbox (content : String)
  | textQuestion (content : String) (optional : Bool)
  | experiment (sensor : Sensor) (description : String)
  | graph (g : GraphDraft)
  | export
deriving DecidableEq, Repr

/-- A component as written. -/
inductive ComponentDraft where
  | leaf (name : String) (element : ElementDraft)
  | sheet (name : String) (orientation : Orientation) (items : List ComponentDraft)

mutual

/-- Pages one after the other. -/
inductive Pages where
  | nil
  | cons (component : ComponentDraft) (outcomes : Outcomes) (rest : Pages)

/-- The pages that follow on other branches than the ordinary one. -/
inductive Outcomes where
  | nil
  | cons (branch : UInt32) (pages : Pages) (rest : Outcomes)

end

/-- A script as written. -/
structure Draft where
  title : String
  pages : Pages

namespace ComponentDraft

/-- The name. -/
def name : ComponentDraft → String
  | .leaf name _ => name
  | .sheet name _ _ => name

mutual

/-- The names of the experiments in a component. -/
def experiments : ComponentDraft → List String
  | .leaf name (.experiment ..) => [name]
  | .leaf .. => []
  | .sheet _ _ items => experimentsOfItems items

/-- The names of the experiments in items. -/
def experimentsOfItems : List ComponentDraft → List String
  | [] => []
  | c :: rest => experiments c ++ experimentsOfItems rest

end

end ComponentDraft

mutual

/-- The names of the experiments on pages. -/
def Pages.experiments : Pages → List String
  | .nil => []
  | .cons component outcomes rest =>
    component.experiments ++ outcomes.experiments ++ rest.experiments

/-- The names of the experiments on the pages of outcomes. -/
def Outcomes.experiments : Outcomes → List String
  | .nil => []
  | .cons _ pages rest => pages.experiments ++ rest.experiments

end

mutual

/-- The number of pages, those of outcomes included. -/
def Pages.size : Pages → Nat
  | .nil => 0
  | .cons _ outcomes rest => 1 + outcomes.size + rest.size

/-- The number of pages of outcomes. -/
def Outcomes.size : Outcomes → Nat
  | .nil => 0
  | .cons _ pages rest => pages.size + rest.size

end

end GuidedLab.Source
