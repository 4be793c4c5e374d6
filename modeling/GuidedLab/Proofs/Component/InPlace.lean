import GuidedLab.Component.Interaction

/-!
# Interactions in place

`respond?` answers a component or a fault, so a refused interaction has nothing to show. Here the
component is changed where it stands, one write after the other, and what was written when a fault
comes stays written: an element writes its data and then its state is set, a sheet has the item worked
on (`workOn`) and then sets its own state.

The two agree (`inPlace_eq`), so no write ever comes before a fault. An element tests what it can
refuse before it writes, and a sheet writes after its item.
-/

namespace GuidedLab

/-- What stands where a value stood when it was worked on as a whole or not at all. -/
def allOrNothing {α β : Type} (a : α) : Except Fault (α × β) → α × Except Fault β
  | .ok (a', b) => (a', .ok b)
  | .error f => (a, .error f)

/-- An element with the data of an interaction written to it, and the state it asks for. -/
def Element.inPlace (name : String) : Interaction → Element → Element × Except Fault State
  | .override s, e => (e, .ok s)
  | .check ticked, .checkbox s => (.checkbox s, .ok (State.ofAllDone ticked))
  | .answer s, .textQuestion q =>
    let q := { q with answer := s }
    (.textQuestion q, .ok q.state)
  | .optional optional, .textQuestion q =>
    let q := { q with optional }
    (.textQuestion q, .ok q.state)
  | .record path, .experiment e =>
    if path.isContained then (.experiment { e with path := some path }, .ok .plainlyDone)
    else (.experiment e, .error (.invalidValue name Experiment.pathKey))
  | i, e => (e, .error (.unsupported name i.label))

namespace Component

/-- The addressed component after the writes of an interaction. -/
def reactInPlace (i : Interaction) : Component → Component × Except Fault Unit
  | .leaf name state element =>
    match element.inPlace name i with
    | (element, .ok s) => (.leaf name s element, .ok ())
    | (element, .error f) => (.leaf name state element, .error f)
  | .sheet name state orientation items =>
    match i with
    | .override s => (.sheet name s orientation items, .ok ())
    | i => (.sheet name state orientation items, .error (.unsupported name (Interaction.label i)))

/-- A component after the writes of an interaction with the item at a row of positions, and the
changes or the fault that ended it. -/
def inPlace (i : Interaction) :
    List Nat → Component → Component × Except Fault (List ItemChange)
  | [], c =>
    let r := c.reactInPlace i
    (r.1, r.2.map fun _ => changed c.state r.1.state)
  | index :: _, .leaf name state element =>
    (.leaf name state element, .error (.notASheet index name))
  | index :: rest, .sheet name state orientation items =>
    -- the changes below are noted aside, as the work on an item answers none
    let nested := (items[index]?.bind fun item => (inPlace i rest item).2.toOption).getD []
    let work item := ((inPlace i rest item).1, (inPlace i rest item).2.map fun _ => ())
    match workOn items index work with
    | (items, .error f) => (.sheet name state orientation items, .error f)
    | (items, .ok told) =>
      let state' := stateAfter state told
      (.sheet name state' orientation items,
        .ok (nested.map (ItemChange.below index) ++ changed state state'))

end Component

theorem Element.inPlace_eq (name : String) (i : Interaction) (e : Element) :
    e.inPlace name i = allOrNothing e ((e.react? name i).map Prod.swap) := by
  cases i with
  | record path =>
      cases e with
      | experiment e =>
          rw [inPlace, react?]
          cases path.isContained <;> rfl
      | _ => rfl
  | _ => cases e <;> rfl

namespace Component

theorem reactInPlace_eq (i : Interaction) (c : Component) :
    c.reactInPlace i = allOrNothing c ((c.react? i).map fun d => (d, ())) := by
  cases c with
  | leaf name state element =>
      rw [reactInPlace, react?, Element.inPlace_eq]
      cases element.react? name i <;> rfl
  | sheet name state orientation items => cases i <;> rfl

theorem inPlace_eq (i : Interaction) (p : List Nat) (c : Component) :
    c.inPlace i p = allOrNothing c (c.respond? i p) := by
  induction p generalizing c with
  | nil =>
      rw [inPlace, respond?_nil, reactInPlace_eq]
      cases c.react? i <;> rfl
  | cons index rest ih =>
      cases c with
      | leaf => rfl
      | sheet name state orientation items =>
          rw [inPlace, respond?_cons_sheet]
          simp only [ih]
          cases hi : items[index]? with
          | none =>
              simp only [workOn, hi]
              rfl
          | some item =>
              cases hr : item.respond? i rest with
              | ok r =>
                  simp only [workOn, hi, hr, Option.bind_some]
                  rfl
              | error f =>
                  have hset : items.set index item = items := by
                    obtain ⟨hlt, rfl⟩ := List.getElem?_eq_some_iff.1 hi
                    exact List.set_getElem_self hlt
                  simp only [workOn, hi, hr, allOrNothing, hset]
                  rfl

end Component

end GuidedLab
