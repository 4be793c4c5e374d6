import GuidedLab.Proofs.Component.Parts

/-!
# New components

`c.Built` holds of the components that the constructors make: elements, and sheets of built items. A
sheet numbers the questions among its items, so an item of a built sheet need not be built itself;
what survives the numbering is `IsInitial`, an element as it was made or a sheet in the state of its
items, and it holds of every part (`Built.every_isInitial`).
-/

namespace GuidedLab

/-- Nothing has been answered or recorded. -/
def Element.IsNew : Element → Prop
  | .textQuestion q => q.answer = ""
  | .experiment e => e.path = none
  | _ => True

theorem Element.isNew_withNumber? {n : UInt32} {e e' : Element} (h : e.withNumber? n = some e')
    (hnew : e.IsNew) : e'.IsNew := by
  cases e <;> cases h
  · exact trivial
  · exact hnew

theorem Element.initialState_withNumber? {n : UInt32} {e e' : Element}
    (h : e.withNumber? n = some e') : e'.initialState = e.initialState := by
  cases e <;> cases h <;> rfl

namespace Component

/-- The components that the constructors make. -/
inductive Built : Component → Prop where
  | text (name text : String) : Built (ofText name text)
  | header (name text : String) : Built (ofHeader name text)
  | question (name text : String) : Built (ofQuestion name text)
  | checkbox (name text : String) : Built (ofCheckbox name text)
  | textQuestion (name text : String) (optional : Bool) : Built (ofTextQuestion name text optional)
  | experiment (name : String) (sensor : Sensor) (description : String) :
      Built (ofExperiment name sensor description)
  | graph (name : String) (graph : Graph) : Built (ofGraph name graph)
  | exportPart (name : String) : Built (ofExport name)
  | sheet (name : String) (orientation : Orientation) (items : List Component)
      (h : ∀ c ∈ items, Built c) : Built (ofItems name orientation items)

/-- A new element in its first state, or a sheet in the state of its items. -/
def IsInitial : Component → Prop
  | .leaf _ state element => element.IsNew ∧ state = element.initialState
  | .sheet _ state _ items => state = State.ofAllDone (allDone items)

theorem numbered_sheet_cons (n : UInt32) (name : String) (state : State) (orientation : Orientation)
    (items rest : List Component) :
    numbered n (.sheet name state orientation items :: rest) =
      .sheet name state orientation items :: numbered n rest := rfl

/-- A numbered item is one of the items, or a question among them with a number. -/
theorem mem_numbered {n : UInt32} {items : List Component} {c : Component}
    (h : c ∈ numbered n items) :
    c ∈ items ∨ ∃ name state element element' k, Component.leaf name state element ∈ items ∧
      element.withNumber? k = some element' ∧ c = .leaf name state element' := by
  induction items generalizing n with
  | nil => cases h
  | cons d rest ih =>
      have later : ∀ {m}, c ∈ numbered m rest → c ∈ d :: rest ∨
          ∃ name state element element' k, Component.leaf name state element ∈ d :: rest ∧
            element.withNumber? k = some element' ∧ c = .leaf name state element' := by
        intro m hm
        rcases ih hm with hc | ⟨name, state, element, element', k, hc, hk, rfl⟩
        · exact Or.inl (List.mem_cons_of_mem _ hc)
        · exact Or.inr ⟨name, state, element, element', k, List.mem_cons_of_mem _ hc, hk, rfl⟩
      cases d with
      | leaf name state element =>
          rw [numbered] at h
          split at h
          · next element' hk =>
              rcases List.mem_cons.1 h with rfl | h
              · exact Or.inr ⟨name, state, element, element', _, List.mem_cons_self, hk, rfl⟩
              · exact later h
          · rcases List.mem_cons.1 h with rfl | h
            · exact Or.inl List.mem_cons_self
            · exact later h
      | sheet name state orientation items =>
          rw [numbered_sheet_cons] at h
          rcases List.mem_cons.1 h with rfl | h
          · exact Or.inl List.mem_cons_self
          · exact later h

/-- Whether items are done depends on their states alone. -/
theorem allDone_eq_of_states {items items' : List Component}
    (h : items.map state = items'.map state) : allDone items = allDone items' := by
  have hall : ∀ cs : List Component,
      allDone cs = (!(cs.map state).isEmpty && (cs.map state).all State.isDone) := by
    intro cs
    rw [allDone, List.isEmpty_map, List.all_map]
    rfl
  rw [hall, hall, h]

theorem states_numbered (n : UInt32) (items : List Component) :
    (numbered n items).map state = items.map state := by
  induction items generalizing n with
  | nil => rfl
  | cons c rest ih =>
      cases c with
      | leaf name s element =>
          rw [numbered]
          split
          · rw [List.map_cons, List.map_cons, ih]
            rfl
          · rw [List.map_cons, List.map_cons, ih]
      | sheet name s orientation items =>
          rw [numbered_sheet_cons, List.map_cons, List.map_cons, ih]

@[simp] theorem allDone_numbered (n : UInt32) (items : List Component) :
    allDone (numbered n items) = allDone items :=
  allDone_eq_of_states (states_numbered n items)

theorem every_isInitial_ofElement {name : String} {element : Element} (h : element.IsNew) :
    (ofElement name element).Every IsInitial :=
  every_leaf.2 ⟨h, rfl⟩

theorem Built.every_isInitial {c : Component} (h : c.Built) : c.Every IsInitial := by
  induction h with
  | text | header | question | checkbox | graph | exportPart =>
      exact every_isInitial_ofElement trivial
  | textQuestion | experiment => exact every_isInitial_ofElement rfl
  | sheet name orientation items _ ih =>
      rw [ofItems, every_sheet]
      constructor
      · show State.ofAllDone (allDone items) = State.ofAllDone (allDone (numbered 0 items))
        rw [allDone_numbered]
      · intro c hc
        rcases mem_numbered hc with hm | ⟨name, state, element, element', k, hm, hk, rfl⟩
        · exact ih c hm
        · obtain ⟨hnew, hstate⟩ := every_leaf.1 (ih _ hm)
          refine every_leaf.2 ⟨Element.isNew_withNumber? hk hnew, ?_⟩
          rw [Element.initialState_withNumber? hk]
          exact hstate

end Component

end GuidedLab
