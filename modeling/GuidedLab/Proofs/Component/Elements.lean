import GuidedLab.Proofs.Component.Completion
import GuidedLab.Proofs.Component.Lasting

/-!
# A component and its elements

Where all sheets are current, their states follow from the states of the elements below them. So a
component is what lasts in it together with its elements (`eq_of_elements_eq`), and in which order the
elements came to be as they are does not show.

To an element an interaction does the same wherever the element stands: `c.reacted i` is the element
afterwards, as it was if it refuses. Other elements stay as they are (`Responds.item?_eq_some_iff`).
-/

namespace GuidedLab

namespace Component

/-- The component after an interaction with it; what is refused leaves it. -/
def reacted (i : Interaction) (c : Component) : Component :=
  ((c.react? i).toOption).getD c

theorem reacted_of_reacts {i : Interaction} {c d : Component} (h : c.Reacts i d) :
    c.reacted i = d := by
  rw [reacted, react?_eq_ok_iff.2 h]
  rfl

theorem reacted_of_error {i : Interaction} {c : Component} {f : Fault} (h : c.react? i = .error f) :
    c.reacted i = c := by
  rw [reacted, h]
  rfl

theorem isElement_reacted {i : Interaction} {c : Component} (h : c.IsElement) :
    (c.reacted i).IsElement := by
  cases hr : c.react? i with
  | error f =>
      rw [reacted_of_error hr]
      exact h
  | ok d =>
      have hd := react?_eq_ok_iff.1 hr
      rw [reacted_of_reacts hd]
      cases hd with
      | leaf => exact trivial
      | sheet => exact h

/-- A component of current sheets is what lasts in it together with its elements. -/
theorem eq_of_elements_eq {c d : Component} (hc : c.Every IsCurrent) (hd : d.Every IsCurrent)
    (same : c.withoutChanges = d.withoutChanges)
    (elements : ∀ p e, c.item? p = some e → e.IsElement → d.item? p = some e) : c = d := by
  induction c using Component.induction generalizing d with
  | leaf name state element =>
      have hself := elements [] _ (item?_nil _) trivial
      rw [item?_nil] at hself
      exact (Option.some.inj hself).symm
  | sheet name state orientation items ih =>
      cases d with
      | leaf name' state' element' => cases same
      | sheet name' state' orientation' items' =>
          rw [withoutChanges, withoutChanges, erased_sheet, erased_sheet] at same
          injection same with hname _ horientation hitems
          obtain ⟨hstate, hcurrent⟩ := every_sheet.1 hc
          obtain ⟨hstate', hcurrent'⟩ := every_sheet.1 hd
          have hall : items = items' := by
            apply Lists.eq_of_map_eq hitems
            intro j x y hx hy hxy
            apply ih x (List.mem_of_getElem? hx) (hcurrent x (List.mem_of_getElem? hx))
              (hcurrent' y (List.mem_of_getElem? hy)) hxy
            intro p e he hel
            have hp := elements (j :: p) e
            rw [item?_sheet_cons, item?_sheet_cons, hx, hy] at hp
            exact hp he hel
          have hstates : state = state' := by
            rw [show state = State.ofAllDone (allDone items) from hstate,
              show state' = State.ofAllDone (allDone items') from hstate', hall]
          rw [hname, hstates, horientation, hall]

end Component

end GuidedLab
