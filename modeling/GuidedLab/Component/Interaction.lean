import GuidedLab.Component.Basic

/-!
# Interactions

An interaction is what a learner or a script does to one component: tick a checkbox, answer a text
question or make it optional, record an experiment, or override the state of anything. `react?` is its
effect on the addressed component alone; `respond?` follows the positions to that component and brings
the sheets around it up to date on the way back.

A sheet is brought up to date only if the state of the item below it changed: then it takes the state
of its items. A change is reported for each component whose state is another one afterwards, the
innermost first. An interaction that is refused changes nothing, since only a success has a component
to show.
-/

namespace GuidedLab

/-- What is done to a component. -/
inductive Interaction where
  | check (ticked : Bool)
  | answer (text : String)
  | optional (optional : Bool)
  | record (path : RawPath)
  | override (state : State)
deriving DecidableEq, Repr

/-- The name of an interaction. -/
def Interaction.label : Interaction → String
  | .check _ => "set-checked"
  | .answer _ => "set-answer"
  | .optional _ => "set-optional"
  | .record _ => "record-experiment"
  | .override _ => "set-state"

/-- The key of the recorded path, in archives and in messages. -/
def Experiment.pathKey : String := "experiment_path"

/-- An element and its state after an interaction, for the component of a name. -/
def Element.react? (name : String) : Interaction → Element → Except Fault (State × Element)
  | .override s, e => .ok (s, e)
  | .check ticked, .checkbox s => .ok (State.ofAllDone ticked, .checkbox s)
  | .answer s, .textQuestion q =>
    let q := { q with answer := s }
    .ok (q.state, .textQuestion q)
  | .optional optional, .textQuestion q =>
    let q := { q with optional }
    .ok (q.state, .textQuestion q)
  | .record path, .experiment e =>
    if path.isContained then .ok (.plainlyDone, .experiment { e with path := some path })
    else .error (.invalidValue name Experiment.pathKey)
  | i, _ => .error (.unsupported name i.label)

/-- A state that a component has taken, at the positions that lead to it. -/
structure ItemChange where
  items : List Nat
  state : State
deriving DecidableEq, Repr

/-- The change as seen from the sheet around it. -/
def ItemChange.below (index : Nat) (change : ItemChange) : ItemChange :=
  { change with items := index :: change.items }

namespace Component

/-- The change from one state to another, if they differ. -/
def changed (before after : State) : List ItemChange :=
  if after = before then [] else [⟨[], after⟩]

/-- A component after an interaction with it. -/
def react? (i : Interaction) : Component → Except Fault Component
  | .leaf name _ element =>
    (element.react? name i).map fun r => .leaf name r.1 r.2
  | .sheet name _ orientation items =>
    match i with
    | .override s => .ok (.sheet name s orientation items)
    | i => .error (.unsupported name (Interaction.label i))

/-- Whether all items are done, told when the state of one of them has changed. -/
def told? (before after : State) (items : List Component) : Option Bool :=
  if after = before then none else some (allDone items)

/-- The state of a sheet after what it is told about its items. -/
def stateAfter (state : State) : Option Bool → State
  | none => state
  | some done => State.ofAllDone done

/-- The component after an interaction with the item at a row of positions, and the changes. -/
def respond? (i : Interaction) : List Nat → Component → Except Fault (Component × List ItemChange)
  | [], c => (c.react? i).map fun d => (d, changed c.state d.state)
  | index :: _, .leaf name .. => .error (.notASheet index name)
  | index :: rest, .sheet name state orientation items =>
    match items[index]? with
    | none => .error (.noSuchItem index)
    | some item =>
      (respond? i rest item).map fun (item', changes) =>
        let items' := items.set index item'
        let state' := stateAfter state (told? item.state item'.state items')
        (.sheet name state' orientation items',
          changes.map (ItemChange.below index) ++ changed state state')

/-- Items with the one at a position worked on, and whether all are done if its state has changed.
What the work did to the item stays also when the work ends in a fault. -/
def workOn (items : List Component) (index : Nat)
    (work : Component → Component × Except Fault Unit) :
    List Component × Except Fault (Option Bool) :=
  match items[index]? with
  | none => (items, .error (.noSuchItem index))
  | some item =>
    let (item', result) := work item
    let items' := items.set index item'
    (items', result.map fun _ => told? item.state item'.state items')

theorem respond?_nil (i : Interaction) (c : Component) :
    c.respond? i [] = (c.react? i).map fun d => (d, changed c.state d.state) := by
  cases c <;> rfl

theorem respond?_cons_sheet (i : Interaction) (index : Nat) (rest : List Nat) (name : String)
    (state : State) (orientation : Orientation) (items : List Component) :
    (Component.sheet name state orientation items).respond? i (index :: rest) =
      match items[index]? with
      | none => .error (.noSuchItem index)
      | some item =>
        (respond? i rest item).map fun (item', changes) =>
          let items' := items.set index item'
          let state' := stateAfter state (told? item.state item'.state items')
          (.sheet name state' orientation items',
            changes.map (ItemChange.below index) ++ changed state state') := by
  rw [respond?]

@[simp] theorem changed_self (s : State) : changed s s = [] := by simp [changed]

@[simp] theorem told?_self (s : State) (items : List Component) : told? s s items = none := by
  simp [told?]

end Component

end GuidedLab
