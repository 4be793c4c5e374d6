import GuidedLab.Proofs.Component.Lasting

/-!
# The outline of a component

The outline of a component is its kind and its name, and for a sheet the outlines of its items in
their order. States, texts, numbers, answers and the orientation of a sheet are not in it. It is a
matter of what lasts (`outline_erased`), so no interaction changes it. A component of the same
outline as an element is an element of that kind, and one of the same outline as a sheet is a sheet
with items of the same outlines.
-/

namespace GuidedLab

/-- The kind and the name of a component, and the same of its items. -/
inductive Outline where
  | element (label name : String)
  | sheet (name : String) (items : List Outline)

namespace Component

mutual

/-- The outline of a component. -/
def outline : Component → Outline
  | .leaf name _ element => .element element.label name
  | .sheet name _ _ items => .sheet name (outlines items)

/-- The outlines of items. -/
def outlines : List Component → List Outline
  | [] => []
  | c :: rest => outline c :: outlines rest

end

theorem outlines_eq_map (items : List Component) : outlines items = items.map outline := by
  induction items with
  | nil => rfl
  | cons c rest ih => rw [outlines, List.map_cons, ih]

theorem outline_sheet (name : String) (state : State) (orientation : Orientation)
    (items : List Component) :
    (Component.sheet name state orientation items).outline = .sheet name (items.map outline) := by
  rw [outline, outlines_eq_map]

theorem outline_erased {f : Element → Element} (h : ∀ e, (f e).label = e.label) (c : Component) :
    (c.erased f).outline = c.outline := by
  induction c using Component.induction with
  | leaf name state element => rw [erased, outline, outline, h]
  | sheet name state orientation items ih =>
      rw [erased_sheet, outline_sheet, outline_sheet, List.map_map]
      congr 1
      exact List.map_congr_left ih

theorem outline_eq_of_withoutChanges_eq {c d : Component}
    (h : c.withoutChanges = d.withoutChanges) : c.outline = d.outline := by
  rw [← outline_erased Element.label_withoutChanges c,
    ← outline_erased Element.label_withoutChanges d]
  exact congrArg outline h

theorem exists_leaf_of_outline_eq {name : String} {state : State} {element : Element}
    {d : Component} (h : d.outline = (Component.leaf name state element).outline) :
    ∃ state' element', d = .leaf name state' element' ∧ element'.label = element.label := by
  cases d with
  | leaf name' state' element' =>
      injection h with hlabel hname
      subst hname
      exact ⟨state', element', rfl, hlabel⟩
  | sheet name' state' orientation' items' => cases h

theorem exists_sheet_of_outline_eq {name : String} {state : State} {orientation : Orientation}
    {items : List Component} {d : Component}
    (h : d.outline = (Component.sheet name state orientation items).outline) :
    ∃ state' orientation' items', d = .sheet name state' orientation' items' ∧
      items'.map outline = items.map outline := by
  cases d with
  | leaf name' state' element' => cases h
  | sheet name' state' orientation' items' =>
      rw [outline_sheet, outline_sheet] at h
      injection h with hname hitems
      subst hname
      exact ⟨state', orientation', items', rfl, hitems⟩

end Component

end GuidedLab
