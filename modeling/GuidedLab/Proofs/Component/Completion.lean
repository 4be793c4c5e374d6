import GuidedLab.Proofs.Lists
import GuidedLab.Proofs.Component.Response
import GuidedLab.Proofs.Component.Built

/-!
# Completion of one component

Two things keep a component complete when it should be. A sheet is *current* when it is in the state
of its items (`IsCurrent`), and an element is in the state that its data dictates (`dueState`). A
checkbox does not keep whether it is ticked, so its state is what the last tick dictates.

A sheet is brought up to date only when the item below it has changed its state. That is enough,
since the items are seen through their states alone (`allDone_set_of_state_eq`), and so an
interaction keeps all sheets current, at every depth, unless it overrides one
(`Responds.every_isCurrent`).
-/

namespace GuidedLab

/-- Whether an interaction overrides a state. -/
def Interaction.IsOverride : Interaction → Prop
  | .override _ => True
  | _ => False

/-- What an interaction ticks a checkbox to. -/
def Interaction.tick? : Interaction → Option Bool
  | .check ticked => some ticked
  | _ => none

/-- The state that the data of an element dictates, and the last tick if there was one. -/
def Element.dueState (lastTick : Option Bool) : Element → State
  | .checkbox _ => if lastTick = some true then .plainlyDone else .ongoing
  | .textQuestion q => if q.optional = true ∨ q.answer ≠ "" then .plainlyDone else .ongoing
  | .experiment e => if e.path ≠ none then .plainlyDone else .ongoing
  | _ => .plainlyDone

theorem State.ofAllDone_ne_inactive (done : Bool) : ofAllDone done ≠ .inactive := by
  cases done <;> exact State.noConfusion

theorem TextQuestion.state_eq (q : TextQuestion) :
    q.state = if q.optional = true ∨ q.answer ≠ "" then .plainlyDone else .ongoing := by
  rw [TextQuestion.state]
  by_cases ho : q.optional = true
  · rw [ho, Bool.true_or, if_pos rfl, if_pos (Or.inl rfl)]
  · by_cases ha : q.answer = ""
    · rw [if_neg (by simp [ho, ha]), if_neg (by simp [ho, ha])]
    · rw [if_pos (by simp [ha]), if_pos (Or.inr ha)]

/-- A new element is in the state that is due without a tick. -/
theorem Element.IsNew.initialState_eq {e : Element} (h : e.IsNew) :
    e.initialState = e.dueState none := by
  cases e with
  | textQuestion q => exact q.state_eq
  | experiment e =>
      have hpath : e.path = none := h
      rw [initialState, dueState, hpath, if_neg (not_not_intro rfl)]
  | _ => rfl

/-- Unless it is overridden, an element reacts with the state that is due afterwards. -/
theorem Element.Reacts.state_eq {i : Interaction} {e e' : Element} {s : State}
    (h : Reacts i e s e') (hi : ¬ i.IsOverride) (before : Option Bool) :
    s = e'.dueState (i.tick?.or before) := by
  cases h with
  | override s e => exact absurd trivial hi
  | check ticked text =>
      cases ticked <;> rfl
  | answer s q => exact TextQuestion.state_eq _
  | optional optional q => exact TextQuestion.state_eq _
  | record path e contained => rfl

/-- What is due is never inactive. -/
theorem Element.dueState_ne_inactive (lastTick : Option Bool) (e : Element) :
    e.dueState lastTick ≠ .inactive := by
  cases e with
  | checkbox | textQuestion | experiment =>
      rw [dueState]
      split <;> exact State.noConfusion
  | _ => exact State.noConfusion

namespace Component

/-- A sheet in the state of its items; an element always counts. -/
def IsCurrent : Component → Prop
  | .leaf .. => True
  | .sheet _ state _ items => state = State.ofAllDone (allDone items)

theorem IsInitial.isCurrent {c : Component} (h : c.IsInitial) : c.IsCurrent := by
  cases c with
  | leaf name state element => exact trivial
  | sheet name state orientation items => exact h

/-- Whether all items are done is seen from their states. -/
theorem allDone_set_of_state_eq {items : List Component} {index : Nat} {item item' : Component}
    (hi : items[index]? = some item) (h : item'.state = item.state) :
    allDone (items.set index item') = allDone items := by
  apply allDone_eq_of_states
  exact Lists.map_set_of_eq hi h

/-- A sheet that was current is so again after one of its items has become another one. -/
theorem settled_eq_ofAllDone {items : List Component} {index : Nat} {item item' : Component}
    (hi : items[index]? = some item) :
    settled (State.ofAllDone (allDone items)) item item' (items.set index item') =
      State.ofAllDone (allDone (items.set index item')) := by
  by_cases h : item'.state = item.state
  · rw [settled_of_eq h, allDone_set_of_state_eq hi h]
  · exact settled_of_ne h _ _

/-- An interaction that overrides no sheet keeps every sheet current. -/
theorem Responds.every_isCurrent {i : Interaction} {p : List Nat} {c d : Component}
    {changes : List ItemChange} (h : Responds i p c d changes)
    (gentle : i.IsOverride → ∀ e, c.item? p = some e → e.IsElement)
    (hc : c.Every IsCurrent) : d.Every IsCurrent := by
  induction h with
  | @addressed c d h =>
      cases h with
      | leaf name before h => exact every_leaf.2 trivial
      | sheet name before state orientation items =>
          exact absurd (gentle trivial _ (item?_nil _)) not_false
  | @within items index rest item item' changes name state orientation hi h ih =>
      obtain ⟨hstate, hitems⟩ := every_sheet.1 hc
      have hstate : state = State.ofAllDone (allDone items) := hstate
      have hitem : item.Every IsCurrent := hitems item (List.mem_of_getElem? hi)
      -- The sheets below are current by induction; this one is by its items' states alone.
      have hitem' : item'.Every IsCurrent := by
        apply ih _ hitem
        intro hover e he
        apply gentle hover e
        rw [item?_sheet_cons, hi, Option.bind_some, he]
      rw [every_sheet]
      constructor
      · rw [hstate]
        exact settled_eq_ofAllDone hi
      · exact every_set hitems hitem'

end Component

end GuidedLab
