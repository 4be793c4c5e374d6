import GuidedLab.Proofs.Component.Elements

/-!
# Finished components

Every element that is due can be finished by one interaction (`isDone_reacted_finishing`). A component
of current sheets is done as soon as its elements are, if every sheet in it has an item
(`isDone_of_every_isFilled`). With a sheet without items in it the component is never done
(`every_isFilled_of_isDone`), and no interaction puts items into a sheet.
-/

namespace GuidedLab

/-- An interaction that leaves the element done; what is done from the start refuses it. -/
def Element.finishing : Element → Interaction
  | .textQuestion _ => .answer "answer"
  | .experiment _ => .record (.ofPath ⟨"recording"⟩)
  | _ => .check true

theorem Element.finishing_withoutChanges (e : Element) :
    e.withoutChanges.finishing = e.finishing := by
  cases e <;> rfl

theorem Element.not_isOverride_finishing (e : Element) : ¬ e.finishing.IsOverride := by
  cases e <;> exact not_false

namespace Component

/-- What finishes an element; a sheet refuses it. -/
def finishing : Component → Interaction
  | .leaf _ _ element => element.finishing
  | .sheet .. => .check true

mutual

/-- The rows of positions that lead to elements. -/
def elementRows : Component → List (List Nat)
  | .leaf .. => [[]]
  | .sheet _ _ _ items => itemRows 0 items

/-- The rows that lead to elements of items, the first of which stands at a position. -/
def itemRows (index : Nat) : List Component → List (List Nat)
  | [] => []
  | c :: rest => c.elementRows.map (index :: ·) ++ itemRows (index + 1) rest

end

/-- A sheet with an item; an element always counts. -/
def IsFilled : Component → Prop
  | .leaf .. => True
  | .sheet _ _ _ items => items ≠ []

/-- An element that is done; a sheet always counts. -/
def IsFinished (c : Component) : Prop :=
  c.IsElement → c.state.isDone = true

theorem finishing_withoutChanges (c : Component) : c.withoutChanges.finishing = c.finishing := by
  cases c with
  | leaf name state element => exact element.finishing_withoutChanges
  | sheet name state orientation items => rfl

theorem not_isOverride_finishing (c : Component) : ¬ c.finishing.IsOverride := by
  cases c with
  | leaf name state element => exact element.not_isOverride_finishing
  | sheet name state orientation items => exact not_false

theorem mem_itemRows {items : List Component} {i : Nat} {c : Component} (hi : items[i]? = some c)
    {p : List Nat} (hp : p ∈ c.elementRows) (index : Nat) :
    (index + i) :: p ∈ itemRows index items := by
  induction items generalizing i index with
  | nil => cases hi
  | cons d rest ih =>
      rw [itemRows, List.mem_append]
      cases i with
      | zero =>
          cases hi
          exact Or.inl (List.mem_map.2 ⟨p, hp, rfl⟩)
      | succ i =>
          rw [Nat.add_succ, ← Nat.succ_add]
          exact Or.inr (ih hi (index + 1))

theorem mem_elementRows {c e : Component} {p : List Nat} (h : c.item? p = some e)
    (element : e.IsElement) : p ∈ c.elementRows := by
  induction p generalizing c with
  | nil =>
      rw [item?_nil] at h
      cases h
      cases e with
      | leaf => exact List.mem_cons_self
      | sheet => exact element.elim
  | cons i p ih =>
      obtain ⟨d, hd, hp⟩ := item?_cons_eq_some_iff.1 h
      cases c with
      | leaf => cases hd
      | sheet name state orientation items =>
          have hrow := mem_itemRows hd (ih hp) 0
          rwa [Nat.zero_add] at hrow

/-- An element in the state that is due is done after what finishes it. -/
theorem isDone_reacted_finishing {name : String} {state : State} {element : Element}
    {lastTick : Option Bool} (due : state = element.dueState lastTick) :
    ((Component.leaf name state element).reacted element.finishing).state.isDone = true := by
  cases element with
  | checkbox text => rfl
  | textQuestion q =>
      rw [Element.finishing, reacted_of_reacts (.leaf name state (.answer "answer" q)), Component.state,
        TextQuestion.state_eq, if_pos (Or.inr (show "answer" ≠ "" by decide))]
      rfl
  | experiment e =>
      rw [Element.finishing,
        reacted_of_reacts (.leaf name state (.record (.ofPath ⟨"recording"⟩) e (by decide)))]
      rfl
  | _ =>
      -- the tick is refused, and what is due is done
      subst due
      rfl

theorem isFilled_withoutChanges (c : Component) : c.withoutChanges.IsFilled ↔ c.IsFilled := by
  cases c with
  | leaf name state element => exact Iff.rfl
  | sheet name state orientation items =>
      rw [withoutChanges, erased_sheet, IsFilled, IsFilled, ne_eq, ne_eq, List.map_eq_nil_iff]

/-- Whether sheets have items is a matter of what lasts. -/
theorem every_isFilled_withoutChanges (c : Component) :
    c.withoutChanges.Every IsFilled ↔ c.Every IsFilled := by
  constructor
  · intro h p d hd
    apply (isFilled_withoutChanges d).1
    apply h p
    rw [withoutChanges, item?_erased, hd]
    rfl
  · intro h p d hd
    rw [withoutChanges, item?_erased] at hd
    obtain ⟨e, he, rfl⟩ := Option.map_eq_some_iff.1 hd
    exact (isFilled_withoutChanges e).2 (h p e he)

/-- What is done in current sheets has no sheet without items. -/
theorem every_isFilled_of_isDone {c : Component} (current : c.Every IsCurrent)
    (done : c.state.isDone = true) : c.Every IsFilled := by
  induction c using Component.induction with
  | leaf name state element => exact every_leaf.2 trivial
  | sheet name state orientation items ih =>
      obtain ⟨hstate, hitems⟩ := every_sheet.1 current
      have hstate : state = State.ofAllDone (allDone items) := hstate
      have hall : allDone items = true := by
        cases h : allDone items with
        | true => rfl
        | false =>
            rw [hstate, h] at done
            cases done
      obtain ⟨hne, hdone⟩ := allDone_eq_true_iff.1 hall
      rw [every_sheet]
      exact ⟨hne, fun c hc => ih c hc (hitems c hc) (hdone c hc)⟩

/-- Where every sheet is current and has an item, finished elements make everything done. -/
theorem isDone_of_every_isFilled {c : Component} (current : c.Every IsCurrent)
    (filled : c.Every IsFilled) (finished : c.Every IsFinished) : c.state.isDone = true := by
  induction c using Component.induction with
  | leaf name state element => exact finished.self trivial
  | sheet name state orientation items ih =>
      obtain ⟨hstate, hcurrent⟩ := every_sheet.1 current
      obtain ⟨hne, hfilled⟩ := every_sheet.1 filled
      obtain ⟨-, hfinished⟩ := every_sheet.1 finished
      have hstate : state = State.ofAllDone (allDone items) := hstate
      have hall : allDone items = true :=
        allDone_eq_true_iff.2
          ⟨hne, fun c hc => ih c hc (hcurrent c hc) (hfilled c hc) (hfinished c hc)⟩
      rw [Component.state, hstate, hall]
      rfl

end Component

end GuidedLab
