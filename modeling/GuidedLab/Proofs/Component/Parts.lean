import GuidedLab.Component.Basic

/-!
# Parts of a component

The parts of a component are what rows of positions lead to: the component itself and, below a
sheet, the parts of its items. `c.Every P` says that `P` holds of every part. It is stated through
`item?` and not by recursion, so it is at once the statement about every nesting depth; the
recursion is the bridge lemma `every_sheet`, which the proofs use.
-/

namespace GuidedLab

namespace Component

/-- Neither a sheet nor, therefore, anything with items. -/
def IsElement : Component → Prop
  | .leaf .. => True
  | .sheet .. => False

/-- A property of every part of a component, at every depth. -/
def Every (P : Component → Prop) (c : Component) : Prop :=
  ∀ p d, c.item? p = some d → P d

theorem item?_sheet_cons (name : String) (state : State) (orientation : Orientation)
    (items : List Component) (i : Nat) (p : List Nat) :
    (Component.sheet name state orientation items).item? (i :: p) =
      items[i]?.bind fun d => d.item? p := rfl

theorem item?_cons_eq_some_iff {c e : Component} {i : Nat} {p : List Nat} :
    c.item? (i :: p) = some e ↔ ∃ d, c.items[i]? = some d ∧ d.item? p = some e := by
  rw [item?_cons, Option.bind_eq_some_iff]

/-- Below the component itself, the state does not matter. -/
@[simp] theorem item?_withState_cons (s : State) (c : Component) (i : Nat) (p : List Nat) :
    (c.withState s).item? (i :: p) = c.item? (i :: p) := by
  rw [item?_cons, item?_cons, items_withState]

theorem Every.self {P : Component → Prop} {c : Component} (h : c.Every P) : P c :=
  h [] c (item?_nil c)

theorem Every.item {P : Component → Prop} {c d : Component} {p : List Nat} (h : c.Every P)
    (hd : c.item? p = some d) : d.Every P := by
  intro q e he
  apply h (p ++ q) e
  rw [item?_append, hd]
  exact he

theorem Every.mono {P Q : Component → Prop} {c : Component} (hPQ : ∀ d, P d → Q d)
    (h : c.Every P) : c.Every Q :=
  fun p d hd => hPQ d (h p d hd)

/-- Another state matters to the component itself only. -/
theorem Every.withState {P : Component → Prop} {c : Component} {s : State} (h : c.Every P)
    (hself : P (c.withState s)) : (c.withState s).Every P := by
  intro p d hd
  cases p with
  | nil =>
      rw [item?_nil] at hd
      cases hd
      exact hself
  | cons i p =>
      rw [item?_withState_cons] at hd
      exact h _ d hd

theorem every_leaf {P : Component → Prop} {name : String} {state : State} {element : Element} :
    (Component.leaf name state element).Every P ↔ P (.leaf name state element) := by
  constructor
  · intro h
    exact h.self
  · intro h p d hd
    cases p with
    | nil =>
        rw [item?_nil] at hd
        cases hd
        exact h
    | cons i p => cases hd

/-- A property of every part of a sheet is one of the sheet and of every part of its items. -/
theorem every_sheet {P : Component → Prop} {name : String} {state : State}
    {orientation : Orientation} {items : List Component} :
    (Component.sheet name state orientation items).Every P ↔
      P (.sheet name state orientation items) ∧ ∀ c ∈ items, c.Every P := by
  constructor
  · intro h
    refine ⟨h.self, ?_⟩
    intro c hc
    obtain ⟨i, hi⟩ := List.getElem?_of_mem hc
    apply h.item (p := [i])
    rw [item?_sheet_cons, hi, Option.bind_some, item?_nil]
  · rintro ⟨hself, hitems⟩ p d hd
    cases p with
    | nil =>
        rw [item?_nil] at hd
        cases hd
        exact hself
    | cons i p =>
        rcases item?_cons_eq_some_iff.1 hd with ⟨c, hc, hd⟩
        exact hitems c (List.mem_of_getElem? hc) p d hd

/-- Setting one item keeps what holds of every part of all items. -/
theorem every_set {P : Component → Prop} {items : List Component} {index : Nat} {d : Component}
    (hitems : ∀ c ∈ items, c.Every P) (hd : d.Every P) :
    ∀ c ∈ items.set index d, c.Every P := by
  intro c hc
  rcases List.mem_or_eq_of_mem_set hc with h | rfl
  · exact hitems c h
  · exact hd

end Component

end GuidedLab
