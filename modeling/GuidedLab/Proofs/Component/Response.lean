import GuidedLab.Component.Interaction
import GuidedLab.Proofs.Success
import GuidedLab.Proofs.Component.Parts

/-!
# What an interaction does to a component

`Element.Reacts`, `Component.Reacts` and `Component.Responds` say case by case what an accepted
interaction does: to an element, to the addressed component, and to the component around it. They
hold exactly when the functions succeed (`respond?_eq_ok_iff`), so what every interaction preserves
is proved by induction on `Responds`, with one case for the addressed component and one for a sheet
on the way.

Three lemmas say where an interaction takes effect. The addressed part is another one
(`Responds.target`), a part off the way to it is the same (`Responds.frame`), and a part on the way
is a sheet before and after (`Responds.above`).
-/

namespace GuidedLab

/-- What an accepted interaction makes of an element: its state and the element. -/
inductive Element.Reacts : Interaction → Element → State → Element → Prop where
  | override (s : State) (e : Element) : Reacts (.override s) e s e
  | check (ticked : Bool) (text : String) :
      Reacts (.check ticked) (.checkbox text) (State.ofAllDone ticked) (.checkbox text)
  | answer (s : String) (q : TextQuestion) :
      Reacts (.answer s) (.textQuestion q) (TextQuestion.state { q with answer := s })
        (.textQuestion { q with answer := s })
  | optional (optional : Bool) (q : TextQuestion) :
      Reacts (.optional optional) (.textQuestion q) (TextQuestion.state { q with optional })
        (.textQuestion { q with optional })
  | record (path : RawPath) (e : Experiment) (contained : path.isContained = true) :
      Reacts (.record path) (.experiment e) .plainlyDone
        (.experiment { e with path := some path })

theorem Element.react?_eq_ok_iff {name : String} {i : Interaction} {e e' : Element} {s : State} :
    e.react? name i = .ok (s, e') ↔ Reacts i e s e' := by
  constructor
  · intro h
    cases i with
    | override t =>
        cases h
        exact .override _ _
    | check ticked =>
        cases e <;> cases h
        exact .check ticked _
    | answer t =>
        cases e <;> cases h
        exact .answer t _
    | optional optional =>
        cases e <;> cases h
        exact .optional optional _
    | record path =>
        cases e with
        | experiment e =>
            rw [react?] at h
            split at h
            · next hp =>
                cases h
                exact .record path e hp
            · cases h
        | _ => cases h
  · intro h
    cases h with
    | record path e hp =>
        rw [react?, if_pos hp]
    | _ => rfl

namespace Component

/-- What an accepted interaction makes of the addressed component. -/
inductive Reacts : Interaction → Component → Component → Prop where
  | leaf {i : Interaction} {element element' : Element} {state : State} (name : String)
      (before : State) (h : element.Reacts i state element') :
      Reacts i (.leaf name before element) (.leaf name state element')
  | sheet (name : String) (before state : State) (orientation : Orientation)
      (items : List Component) :
      Reacts (.override state) (.sheet name before orientation items)
        (.sheet name state orientation items)

/-- The state of a sheet after the item at a position has become another one. -/
def settled (state : State) (item item' : Component) (items' : List Component) : State :=
  stateAfter state (told? item.state item'.state items')

/-- What an accepted interaction makes of a component, and the changes it reports. -/
inductive Responds (i : Interaction) :
    List Nat → Component → Component → List ItemChange → Prop where
  | addressed {c d : Component} (h : c.Reacts i d) : Responds i [] c d (changed c.state d.state)
  | within {items : List Component} {index : Nat} {rest : List Nat} {item item' : Component}
      {changes : List ItemChange} (name : String) (state : State) (orientation : Orientation)
      (at? : items[index]? = some item) (h : Responds i rest item item' changes) :
      Responds i (index :: rest) (.sheet name state orientation items)
        (.sheet name (settled state item item' (items.set index item')) orientation
          (items.set index item'))
        (changes.map (ItemChange.below index) ++
          changed state (settled state item item' (items.set index item')))

theorem react?_eq_ok_iff {i : Interaction} {c d : Component} :
    c.react? i = .ok d ↔ c.Reacts i d := by
  constructor
  · intro h
    cases c with
    | leaf name before element =>
        rw [react?] at h
        obtain ⟨r, hr, rfl⟩ := Success.map_eq_ok_iff.1 h
        exact .leaf name before (Element.react?_eq_ok_iff.1 hr)
    | sheet name before orientation items =>
        cases i <;> cases h
        exact .sheet name before _ orientation items
  · intro h
    cases h with
    | leaf name before h => rw [react?, Element.react?_eq_ok_iff.2 h, Except.map]
    | sheet => rfl

theorem respond?_eq_ok_iff {i : Interaction} {p : List Nat} {c d : Component}
    {changes : List ItemChange} :
    c.respond? i p = .ok (d, changes) ↔ Responds i p c d changes := by
  constructor
  · intro h
    induction p generalizing c d changes with
    | nil =>
        rw [respond?_nil] at h
        obtain ⟨e, hr, he⟩ := Success.map_eq_ok_iff.1 h
        cases he
        exact .addressed (react?_eq_ok_iff.1 hr)
    | cons index rest ih =>
        cases c with
        | leaf => cases h
        | sheet name state orientation items =>
            rw [respond?_cons_sheet] at h
            cases hi : items[index]? with
            | none =>
                rw [hi] at h
                cases h
            | some item =>
                rw [hi] at h
                obtain ⟨r, hr, he⟩ := Success.map_eq_ok_iff.1 h
                cases he
                exact .within name state orientation hi (ih hr)
  · intro h
    induction h with
    | addressed h => rw [respond?_nil, react?_eq_ok_iff.2 h, Except.map]
    | within name state orientation hi _ ih =>
        rw [respond?_cons_sheet, hi]
        simp only [ih]
        rfl

theorem Reacts.items_eq {i : Interaction} {c d : Component} (h : c.Reacts i d) :
    d.items = c.items := by
  cases h <;> rfl

/-- A sheet takes the state of its items if the state of the one item changed. -/
theorem settled_of_ne {item item' : Component} (h : item'.state ≠ item.state) (state : State)
    (items' : List Component) :
    settled state item item' items' = State.ofAllDone (allDone items') := by
  rw [settled, told?, if_neg h, stateAfter]

theorem settled_of_eq {item item' : Component} (h : item'.state = item.state) (state : State)
    (items' : List Component) : settled state item item' items' = state := by
  rw [settled, told?, if_pos h, stateAfter]

/-- The addressed part reacts. -/
theorem Responds.target {i : Interaction} {p : List Nat} {c d : Component}
    {changes : List ItemChange} (h : Responds i p c d changes) :
    ∃ e e', c.item? p = some e ∧ e.Reacts i e' ∧ d.item? p = some e' := by
  induction h with
  | @addressed c d h => exact ⟨c, d, item?_nil c, h, item?_nil d⟩
  | @within items index rest item item' changes name state orientation hi h ih =>
      obtain ⟨e, e', he, hr, he'⟩ := ih
      have hlt : index < items.length := (List.getElem?_eq_some_iff.1 hi).1
      refine ⟨e, e', ?_, hr, ?_⟩
      · rw [item?_sheet_cons, hi, Option.bind_some, he]
      · rw [item?_sheet_cons, List.getElem?_set_self hlt, Option.bind_some, he']

/-- A part off the way to the addressed one stays as it is, and so does what lies below the
addressed one. -/
theorem Responds.frame {i : Interaction} {p q : List Nat} {c d : Component}
    {changes : List ItemChange} (h : Responds i p c d changes) (off : ¬ q <+: p) :
    d.item? q = c.item? q := by
  induction h generalizing q with
  | addressed h =>
      cases q with
      | nil => exact absurd List.nil_prefix off
      | cons j q => rw [item?_cons, item?_cons, h.items_eq]
  | @within items index rest item item' changes name state orientation hi h ih =>
      cases q with
      | nil => exact absurd List.nil_prefix off
      | cons j q =>
          rw [item?_sheet_cons, item?_sheet_cons]
          by_cases hj : index = j
          · subst hj
            have hlt : index < items.length := (List.getElem?_eq_some_iff.1 hi).1
            rw [List.getElem?_set_self hlt, hi, Option.bind_some, Option.bind_some]
            exact ih fun hq => off (List.cons_prefix_cons.2 ⟨rfl, hq⟩)
          · rw [List.getElem?_set_ne hj]

/-- A part on the way to the addressed one is a sheet and stays one. -/
theorem Responds.above {i : Interaction} {p q : List Nat} {c d : Component}
    {changes : List ItemChange} (h : Responds i p c d changes) (on : q <+: p) (hne : q ≠ p) :
    ∃ e e', c.item? q = some e ∧ d.item? q = some e' ∧ ¬ e.IsElement ∧ ¬ e'.IsElement := by
  induction h generalizing q with
  | addressed h => exact absurd (List.prefix_nil.1 on) hne
  | @within items index rest item item' changes name state orientation hi h ih =>
      cases q with
      | nil => exact ⟨_, _, item?_nil _, item?_nil _, not_false, not_false⟩
      | cons j q =>
          obtain ⟨rfl, on'⟩ := List.cons_prefix_cons.1 on
          have hlt : j < items.length := (List.getElem?_eq_some_iff.1 hi).1
          rw [item?_sheet_cons, item?_sheet_cons, List.getElem?_set_self hlt, hi]
          exact ih on' fun hq => hne (by rw [hq])

/-- Whatever part reacts, the component around it can respond. -/
theorem exists_responds {i : Interaction} {p : List Nat} {c e e' : Component}
    (he : c.item? p = some e) (h : e.Reacts i e') : ∃ d changes, Responds i p c d changes := by
  induction p generalizing c with
  | nil =>
      rw [item?_nil] at he
      cases he
      exact ⟨e', _, .addressed h⟩
  | cons index rest ih =>
      cases c with
      | leaf => cases he
      | sheet name state orientation items =>
          obtain ⟨item, hi, he⟩ := item?_cons_eq_some_iff.1 he
          obtain ⟨item', changes, hr⟩ := ih he
          exact ⟨_, _, .within name state orientation hi hr⟩

/-- An element that is not addressed is there as it was. -/
theorem Responds.item?_eq_some_iff {i : Interaction} {p q : List Nat} {c d e : Component}
    {changes : List ItemChange} (h : Responds i p c d changes) (hne : q ≠ p) (he : e.IsElement) :
    d.item? q = some e ↔ c.item? q = some e := by
  by_cases on : q <+: p
  · -- on the way there are sheets only
    obtain ⟨x, x', hx, hx', hsheet, hsheet'⟩ := h.above on hne
    rw [hx, hx', Option.some.injEq, Option.some.injEq]
    exact ⟨fun hd => absurd (hd ▸ he) hsheet', fun hc => absurd (hc ▸ he) hsheet⟩
  · rw [h.frame on]

end Component

end GuidedLab
