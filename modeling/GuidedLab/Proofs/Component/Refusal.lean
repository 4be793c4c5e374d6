import GuidedLab.Proofs.Component.Response

/-!
# Refused interactions

An interaction with a component is refused in four cases, and `Refuses` has one constructor for each:
the positions lead past the items of a sheet, they lead into something that is no sheet, the component
they lead to is of a kind that does not accept the interaction, or it is an experiment and the path to
be recorded leaves the run. The fault names what the case is about.

That there are no other cases, and that the fault is always this one, is `respond?_eq_error_iff`.
-/

namespace GuidedLab

namespace Component

/-- Which kind of component an interaction is for. Any state can be overridden. -/
inductive Accepts : Interaction → Component → Prop where
  | override (s : State) (c : Component) : Accepts (.override s) c
  | check (ticked : Bool) (name : String) (state : State) (text : String) :
      Accepts (.check ticked) (.leaf name state (.checkbox text))
  | answer (s name : String) (state : State) (q : TextQuestion) :
      Accepts (.answer s) (.leaf name state (.textQuestion q))
  | optional (optional : Bool) (name : String) (state : State) (q : TextQuestion) :
      Accepts (.optional optional) (.leaf name state (.textQuestion q))
  | record (path : RawPath) (name : String) (state : State) (e : Experiment) :
      Accepts (.record path) (.leaf name state (.experiment e))

/-- Why an interaction with the part at a row of positions is refused. -/
inductive Refuses (i : Interaction) (p : List Nat) (c : Component) : Fault → Prop where
  | noSuchItem {q rest : List Nat} {index : Nat} {d : Component} (way : p = q ++ index :: rest)
      (at? : c.item? q = some d) (sheet : ¬ d.IsElement) (beyond : d.items.length ≤ index) :
      Refuses i p c (.noSuchItem index)
  | notASheet {q rest : List Nat} {index : Nat} {d : Component} (way : p = q ++ index :: rest)
      (at? : c.item? q = some d) (element : d.IsElement) :
      Refuses i p c (.notASheet index d.name)
  | unsupported {d : Component} (at? : c.item? p = some d) (kind : ¬ Accepts i d) :
      Refuses i p c (.unsupported d.name i.label)
  | notContained {d : Component} {path : RawPath} (at? : c.item? p = some d) (kind : Accepts i d)
      (record : i = .record path) (outside : path.isContained = false) :
      Refuses i p c (.invalidValue d.name Experiment.pathKey)

theorem react?_of_not_accepts {i : Interaction} {c : Component} (h : ¬ Accepts i c) :
    c.react? i = .error (.unsupported c.name i.label) := by
  cases c with
  | sheet name state orientation items =>
      cases i with
      | override s => exact absurd (.override s _) h
      | _ => rfl
  | leaf name state element =>
      cases i with
      | override s => exact absurd (.override s _) h
      | check ticked =>
          cases element with
          | checkbox text => exact absurd (.check ticked name state text) h
          | _ => rfl
      | answer s =>
          cases element with
          | textQuestion q => exact absurd (.answer s name state q) h
          | _ => rfl
      | optional optional =>
          cases element with
          | textQuestion q => exact absurd (.optional optional name state q) h
          | _ => rfl
      | record path =>
          cases element with
          | experiment e => exact absurd (.record path name state e) h
          | _ => rfl

theorem react?_of_not_isContained {path : RawPath} {c : Component} (h : Accepts (.record path) c)
    (outside : path.isContained = false) :
    c.react? (.record path) = .error (.invalidValue c.name Experiment.pathKey) := by
  cases h with
  | record path name state e =>
      rw [react?, Element.react?, outside]
      rfl

/-- Whatever accepts an interaction reacts, except to a path outside the run. -/
theorem Accepts.react? {i : Interaction} {c : Component} (h : Accepts i c) :
    (∃ d, c.react? i = .ok d) ∨ ∃ path, i = .record path ∧ path.isContained = false := by
  cases h with
  | override s c => cases c <;> exact Or.inl ⟨_, rfl⟩
  | record path name state e =>
      cases hp : path.isContained with
      | true =>
          rw [Component.react?, Element.react?, hp]
          exact Or.inl ⟨_, rfl⟩
      | false => exact Or.inr ⟨path, rfl, hp⟩
  | _ => exact Or.inl ⟨_, rfl⟩

/-- An element has no items to lead to. -/
theorem respond?_of_isElement {c : Component} (h : c.IsElement) (i : Interaction) (index : Nat)
    (rest : List Nat) : c.respond? i (index :: rest) = .error (.notASheet index c.name) := by
  cases c with
  | leaf => rfl
  | sheet => exact h.elim

theorem respond?_of_length_le {c : Component} (h : ¬ c.IsElement) {index : Nat}
    (beyond : c.items.length ≤ index) (i : Interaction) (rest : List Nat) :
    c.respond? i (index :: rest) = .error (.noSuchItem index) := by
  cases c with
  | leaf => exact absurd trivial h
  | sheet name state orientation items =>
      have hnone : items[index]? = none := List.getElem?_eq_none beyond
      rw [respond?_cons_sheet, hnone]

/-- What a part refuses, the component around it refuses. -/
theorem respond?_append_of_error {i : Interaction} {p q : List Nat} {c d : Component} {f : Fault}
    (hd : c.item? q = some d) (h : d.respond? i p = .error f) :
    c.respond? i (q ++ p) = .error f := by
  induction q generalizing c with
  | nil =>
      rw [item?_nil] at hd
      cases hd
      exact h
  | cons index q ih =>
      cases c with
      | leaf => cases hd
      | sheet name state orientation items =>
          rw [item?_sheet_cons] at hd
          obtain ⟨item, hi, hd⟩ := Option.bind_eq_some_iff.1 hd
          rw [List.cons_append, respond?_cons_sheet, hi]
          simp only [ih hd]
          rfl

theorem respond?_of_react?_error {i : Interaction} {p : List Nat} {c d : Component} {f : Fault}
    (hd : c.item? p = some d) (h : d.react? i = .error f) : c.respond? i p = .error f := by
  rw [← List.append_nil p]
  apply respond?_append_of_error hd
  rw [respond?_nil, h]
  rfl

theorem Refuses.respond? {i : Interaction} {p : List Nat} {c : Component} {f : Fault}
    (h : Refuses i p c f) : c.respond? i p = .error f := by
  cases h with
  | noSuchItem way hd sheet beyond =>
      rw [way]
      exact respond?_append_of_error hd (respond?_of_length_le sheet beyond i _)
  | notASheet way hd element =>
      rw [way]
      exact respond?_append_of_error hd (respond?_of_isElement element i _ _)
  | unsupported hd kind => exact respond?_of_react?_error hd (react?_of_not_accepts kind)
  | notContained hd kind record outside =>
      subst record
      exact respond?_of_react?_error hd (react?_of_not_isContained kind outside)

/-- What an item refuses, the sheet around it refuses. -/
theorem Refuses.around {i : Interaction} {rest : List Nat} {index : Nat} {c item : Component}
    {f : Fault} (hi : c.items[index]? = some item) (h : Refuses i rest item f) :
    Refuses i (index :: rest) c f := by
  have below : ∀ {q : List Nat} {d : Component}, item.item? q = some d →
      c.item? (index :: q) = some d := fun hd => item?_cons_eq_some_iff.2 ⟨item, hi, hd⟩
  cases h with
  | noSuchItem way hd sheet beyond =>
      exact .noSuchItem (by rw [way, List.cons_append]) (below hd) sheet beyond
  | notASheet way hd element =>
      exact .notASheet (by rw [way, List.cons_append]) (below hd) element
  | unsupported hd kind => exact .unsupported (below hd) kind
  | notContained hd kind record outside => exact .notContained (below hd) kind record outside

theorem refuses_of_react? {i : Interaction} {c : Component} {f : Fault}
    (h : c.react? i = .error f) : Refuses i [] c f := by
  by_cases kind : Accepts i c
  · rcases kind.react? with ⟨d, hd⟩ | ⟨path, rfl, outside⟩
    · rw [hd] at h
      cases h
    · rw [react?_of_not_isContained kind outside] at h
      cases h
      exact .notContained (item?_nil c) kind rfl outside
  · rw [react?_of_not_accepts kind] at h
    cases h
    exact .unsupported (item?_nil c) kind

/-- An interaction is refused in the four cases and in no other. -/
theorem respond?_eq_error_iff {i : Interaction} {p : List Nat} {c : Component} {f : Fault} :
    c.respond? i p = .error f ↔ Refuses i p c f := by
  refine ⟨?_, Refuses.respond?⟩
  intro h
  induction p generalizing c with
  | nil =>
      rw [respond?_nil] at h
      exact refuses_of_react? (Success.map_eq_error_iff.1 h)
  | cons index rest ih =>
      cases c with
      | leaf name state element =>
          cases h
          exact .notASheet (q := []) rfl rfl trivial
      | sheet name state orientation items =>
          rw [respond?_cons_sheet] at h
          cases hi : items[index]? with
          | none =>
              rw [hi] at h
              cases h
              exact .noSuchItem (q := []) rfl rfl id (List.getElem?_eq_none_iff.1 hi)
          | some item =>
              rw [hi] at h
              exact (ih (Success.map_eq_error_iff.1 h)).around hi

end Component

end GuidedLab
