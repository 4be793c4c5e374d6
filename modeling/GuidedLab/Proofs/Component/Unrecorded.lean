import GuidedLab.Proofs.Component.Lasting

/-!
# Components without recorded paths

Which path is recorded for an experiment plays no part in what interactions do: a component and the
component `withoutPaths` accept the same interactions and change in the same way, up to the paths
(`respond?_withoutPaths`). Here the states stay, unlike in `erased`, since interactions look at them.
-/

namespace GuidedLab

namespace Element

/-- An element that is not recorded. -/
def withoutPath : Element → Element
  | .experiment e => .experiment { e with path := none }
  | e => e

/-- An element that is not recorded reacts as if it were. -/
theorem react?_withoutPath (name : String) (i : Interaction) (e : Element) :
    (e.withoutPath.react? name i).map (fun r => (r.1, r.2.withoutPath)) =
      (e.react? name i).map fun r => (r.1, r.2.withoutPath) := by
  cases e with
  | experiment x =>
      cases i with
      | record path =>
          rw [withoutPath, react?, react?]
      | _ => rfl
  | _ => rfl

theorem withoutPath_withoutPath (e : Element) : e.withoutPath.withoutPath = e.withoutPath := by
  cases e <;> rfl

theorem withoutChanges_withoutPath (e : Element) : e.withoutPath.withoutChanges = e.withoutChanges := by
  cases e <;> rfl

theorem answer?_withoutPath (e : Element) : e.withoutPath.answer? = e.answer? := by
  cases e <;> rfl

theorem path?_withoutPath (e : Element) : e.withoutPath.path? = none := by
  cases e <;> rfl

theorem optional?_withoutPath (e : Element) : e.withoutPath.optional? = e.optional? := by
  cases e <;> rfl

end Element

namespace Component

mutual

/-- The component without the paths that are recorded in it. -/
def withoutPaths : Component → Component
  | .leaf name state element => .leaf name state element.withoutPath
  | .sheet name state orientation items => .sheet name state orientation (itemsWithoutPaths items)

/-- The items likewise. -/
def itemsWithoutPaths : List Component → List Component
  | [] => []
  | c :: rest => withoutPaths c :: itemsWithoutPaths rest

end

theorem itemsWithoutPaths_eq_map (items : List Component) :
    itemsWithoutPaths items = items.map withoutPaths := by
  induction items with
  | nil => rfl
  | cons c rest ih => rw [itemsWithoutPaths, List.map_cons, ih]

theorem withoutPaths_sheet (name : String) (state : State) (orientation : Orientation)
    (items : List Component) : (Component.sheet name state orientation items).withoutPaths =
      .sheet name state orientation (items.map withoutPaths) := by
  rw [withoutPaths, itemsWithoutPaths_eq_map]

@[simp] theorem state_withoutPaths (c : Component) : c.withoutPaths.state = c.state := by
  cases c <;> rfl

theorem items_withoutPaths (c : Component) : c.withoutPaths.items = c.items.map withoutPaths := by
  cases c with
  | leaf name state element => rfl
  | sheet name state orientation items =>
      rw [withoutPaths_sheet]
      rfl

theorem item?_withoutPaths (c : Component) (p : List Nat) :
    c.withoutPaths.item? p = (c.item? p).map withoutPaths := by
  induction p generalizing c with
  | nil => rw [item?_nil, item?_nil, Option.map_some]
  | cons i p ih =>
      rw [item?_cons, item?_cons, items_withoutPaths, List.getElem?_map]
      cases c.items[i]? with
      | none => rfl
      | some d => exact ih d

theorem withoutPaths_withoutPaths (c : Component) : c.withoutPaths.withoutPaths = c.withoutPaths := by
  induction c using Component.induction with
  | leaf name state element =>
      rw [withoutPaths, withoutPaths, Element.withoutPath_withoutPath]
  | sheet name state orientation items ih =>
      rw [withoutPaths_sheet, withoutPaths_sheet, List.map_map]
      congr 1
      exact List.map_congr_left ih

theorem withoutChanges_withoutPaths (c : Component) :
    c.withoutPaths.withoutChanges = c.withoutChanges := by
  induction c using Component.induction with
  | leaf name state element =>
      rw [withoutPaths, withoutChanges, withoutChanges, erased, erased,
        Element.withoutChanges_withoutPath]
  | sheet name state orientation items ih =>
      rw [withoutPaths_sheet, withoutChanges, withoutChanges, erased_sheet, erased_sheet,
        List.map_map]
      congr 1
      exact List.map_congr_left ih

theorem progress_withoutPaths (c : Component) :
    c.withoutPaths.progress = { c.progress with path? := none } := by
  cases c with
  | leaf name state element =>
      rw [withoutPaths, progress, progress, Element.answer?_withoutPath, Element.path?_withoutPath]
  | sheet name state orientation items =>
      rw [withoutPaths_sheet]
      rfl

theorem optional?_withoutPaths (c : Component) : c.withoutPaths.optional? = c.optional? := by
  cases c with
  | leaf name state element => exact Element.optional?_withoutPath element
  | sheet name state orientation items =>
      rw [withoutPaths_sheet]
      rfl

theorem map_withoutPaths_idem (items : List Component) :
    (items.map withoutPaths).map withoutPaths = items.map withoutPaths := by
  rw [List.map_map]
  exact List.map_congr_left fun c _ => c.withoutPaths_withoutPaths

theorem react?_withoutPaths (i : Interaction) (c : Component) :
    (c.withoutPaths.react? i).map withoutPaths = (c.react? i).map withoutPaths := by
  cases c with
  | leaf name state element =>
      have key : ∀ x : Except Fault (State × Element),
          (x.map fun r => Component.leaf name r.1 r.2).map withoutPaths =
            (x.map fun r => (r.1, r.2.withoutPath)).map fun r => Component.leaf name r.1 r.2 := by
        rintro (_ | _) <;> rfl
      rw [withoutPaths, react?, react?, key, key, Element.react?_withoutPath]
  | sheet name state orientation items =>
      rw [withoutPaths_sheet]
      cases i with
      | override s =>
          rw [react?, react?, Except.map, Except.map, withoutPaths_sheet, withoutPaths_sheet,
            map_withoutPaths_idem]
      | _ => rfl

/-- A component and its changes, without paths. -/
def unrecorded (r : Component × List ItemChange) : Component × List ItemChange :=
  (r.1.withoutPaths, r.2)

/-- Whether items are done, when one of them has changed, does not depend on paths. -/
theorem allDone_set_withoutPaths (items : List Component) (index : Nat) (c : Component) :
    allDone ((items.map withoutPaths).set index c.withoutPaths) = allDone (items.set index c) := by
  apply allDone_eq_of_states
  rw [← List.map_set, List.map_map]
  exact List.map_congr_left fun c _ => c.state_withoutPaths

/-- A component without paths responds as the component does. -/
theorem respond?_withoutPaths (i : Interaction) (p : List Nat) (c : Component) :
    (c.withoutPaths.respond? i p).map unrecorded = (c.respond? i p).map unrecorded := by
  induction p generalizing c with
  | nil =>
      have key : ∀ x : Except Fault Component,
          (x.map fun d => (d, changed c.state d.state)).map unrecorded =
            (x.map withoutPaths).map fun d => (d, changed c.state d.state) := by
        rintro (_ | d)
        · rfl
        · simp only [Except.map, unrecorded, state_withoutPaths]
      rw [respond?_nil, respond?_nil, state_withoutPaths, key, key, react?_withoutPaths]
  | cons index rest ih =>
      cases c with
      | leaf name state element => rfl
      | sheet name state orientation items =>
          rw [withoutPaths_sheet, respond?_cons_sheet, respond?_cons_sheet, List.getElem?_map]
          cases items[index]? with
          | none => rfl
          | some item =>
              -- what becomes of the sheet is seen from the item without paths
              have key : ∀ (all : List Component) (x : Except Fault (Component × List ItemChange)),
                  (x.map fun r =>
                    let items' := all.set index r.1
                    let state' := stateAfter state (told? item.state r.1.state items')
                    (Component.sheet name state' orientation items',
                      r.2.map (ItemChange.below index) ++ changed state state')).map unrecorded =
                  (x.map unrecorded).map fun r =>
                    let items' := (all.map withoutPaths).set index r.1
                    let state' := stateAfter state (told? item.state r.1.state items')
                    (Component.sheet name state' orientation items',
                      r.2.map (ItemChange.below index) ++ changed state state') := by
                rintro all (_ | r)
                · rfl
                · simp only [Except.map, unrecorded, state_withoutPaths, told?,
                    allDone_set_withoutPaths, withoutPaths_sheet, List.map_set]
              simp only [Option.map_some, state_withoutPaths]
              refine (key _ _).trans (Eq.trans ?_ (key _ _).symm)
              rw [ih, map_withoutPaths_idem]

/-- Components that are the same without paths respond in the same way. -/
theorem respond?_eq_of_withoutPaths_eq {c d : Component} (h : c.withoutPaths = d.withoutPaths)
    (i : Interaction) (p : List Nat) :
    (c.respond? i p).map unrecorded = (d.respond? i p).map unrecorded := by
  rw [← respond?_withoutPaths, h, respond?_withoutPaths]

end Component

end GuidedLab
