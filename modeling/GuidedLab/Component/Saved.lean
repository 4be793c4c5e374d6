import GuidedLab.Component.Interaction
import GuidedLab.Archive.Basic

/-!
# Saving a component

A component is saved into an archive: its state as a code, for a text question its answer, for an
experiment the path of its recording, and for a sheet an archive of each item under the item's
position. A text question that is answered is saved with its text and number, so that a saved file
can be read without the script; these two are not read back.

Restoring goes the other way and needs the state of every component. Answers and paths that are
missing or not texts count as empty. A component's own state is looked at before its items, and items
in order; the first misfit ends the restoring, and what was restored up to then stays restored. A
caller who wants all or nothing drops the component that comes with a fault.
-/

namespace GuidedLab

/-- The key of the state in archives. -/
def State.key : String := "state"

/-- The key of the answer in archives. -/
def TextQuestion.answerKey : String := "answer"

/-- The key of the text of an answered question in archives. -/
def TextQuestion.textKey : String := "question"

/-- The key of the number of an answered question in archives. -/
def TextQuestion.numberKey : String := "number"

namespace Element

/-- The archive with what an element has to keep. -/
def savedInto (a : Archive) : Element → Archive
  | .textQuestion q =>
    let a := if q.answer.isEmpty then a else
      let a := a.putText TextQuestion.textKey q.text
      match q.number with
      | some n => a.putInt TextQuestion.numberKey (Int64.ofNat n.toNat)
      | none => a
    a.putText TextQuestion.answerKey q.answer
  | .experiment e =>
    match e.path with
    | some path => a.putText Experiment.pathKey path.text
    | none => a
  | _ => a

/-- The path that an archive holds; an empty one counts as none. -/
def savedPath? (a : Archive) : Option RawPath :=
  ((a.text? Experiment.pathKey).filter fun s => !s.isEmpty).map fun s => .ofPath ⟨s⟩

/-- An element with what an archive kept of it, for the component of a name. -/
def restored? (name : String) (a : Archive) : Element → Except Fault Element
  | .textQuestion q =>
    .ok (.textQuestion { q with answer := (a.text? TextQuestion.answerKey).getD "" })
  | .experiment e =>
    let path := savedPath? a
    if path.all RawPath.isContained then .ok (.experiment { e with path })
    else .error (.invalidValue name Experiment.pathKey)
  | e => .ok e

end Element

namespace Component

mutual

/-- The archive with everything that a component has to keep. -/
def savedInto (a : Archive) : Component → Archive
  | .leaf _ state element => element.savedInto (a.putInt State.key (Int64.ofInt state.code))
  | .sheet _ state _ items => itemsSavedInto (a.putInt State.key (Int64.ofInt state.code)) 0 items

/-- The archive with the items from a position on, each under its position. -/
def itemsSavedInto (a : Archive) (index : Nat) : List Component → Archive
  | [] => a
  | c :: rest =>
    itemsSavedInto (a.putNested (Nat.repr index) (savedInto .empty c)) (index + 1) rest

end

/-- The state that an archive holds for the component of a name. -/
def savedState (name : String) (a : Archive) : Except Fault State :=
  match a.int? State.key with
  | none => .error (.missingKey name State.key)
  | some n =>
    match State.ofCode? n.toInt with
    | none => .error (.invalidValue name State.key)
    | some s => .ok s

mutual

/-- A component as far as it could be restored from an archive, and the first misfit. -/
def restoredFrom (a : Archive) : Component → Component × Except Fault Unit
  | .leaf name state element =>
    match savedState name a with
    | .error f => (.leaf name state element, .error f)
    | .ok s =>
      match element.restored? name a with
      | .error f => (.leaf name state element, .error f)
      | .ok element => (.leaf name s element, .ok ())
  | .sheet name state orientation items =>
    match savedState name a with
    | .error f => (.sheet name state orientation items, .error f)
    | .ok s =>
      match itemsRestoredFrom a 0 items with
      | (items, .error f) => (.sheet name state orientation items, .error f)
      | (items, .ok ()) => (.sheet name s orientation items, .ok ())

/-- The items from a position on, restored likewise. -/
def itemsRestoredFrom (a : Archive) (index : Nat) :
    List Component → List Component × Except Fault Unit
  | [] => ([], .ok ())
  | c :: rest =>
    match a.nested? (Nat.repr index) with
    | none => (c :: rest, .error (.noSavedItem c.name index))
    | some b =>
      match restoredFrom b c with
      | (c, .error f) => (c :: rest, .error f)
      | (c, .ok ()) =>
        match itemsRestoredFrom a (index + 1) rest with
        | (rest, r) => (c :: rest, r)

end

/-- The component restored from an archive as a whole. -/
def restored? (a : Archive) (c : Component) : Except Fault Component :=
  match c.restoredFrom a with
  | (d, .ok ()) => .ok d
  | (_, .error f) => .error f

end Component

end GuidedLab
