import GuidedLab.Proofs.Component.Response

/-!
# Changes that account for states

An interaction reports which states changed. The report is complete and exact when it *accounts* for
the states afterwards: starting from the states before, each reported change is to a component that
exists and was in another state until then, and when all of them are applied in order the states
afterwards are there. `Accounts` is stated for states under any kind of address, since the same report
is read below an item, below a sheet and in the tree: addresses are extended one step at a time
(`Accounts.extend`).

`Component.Responds.accounts` is the statement for one component. A sheet on the way up adds at most
one change, its own, to the report from below.
-/

namespace GuidedLab

/-- The states when a component has taken another one. -/
def restated {α : Type} [DecidableEq α] (states : α → Option State) (change : α × State) :
    α → Option State :=
  fun a => if a = change.1 then some change.2 else states a

/-- Changes lead from some states to others, and each is from another state. -/
inductive Accounts {α : Type} [DecidableEq α] :
    (α → Option State) → List (α × State) → (α → Option State) → Prop where
  | nil (states : α → Option State) : Accounts states [] states
  | cons {before after : α → Option State} {change : α × State} {changes : List (α × State)}
      {old : State} (found : before change.1 = some old) (other : old ≠ change.2)
      (h : Accounts (restated before change) changes after) :
      Accounts before (change :: changes) after

namespace Accounts

variable {α β : Type} [DecidableEq α] [DecidableEq β]

theorem append {before between after : α → Option State} {first later : List (α × State)}
    (h : Accounts before first between) (h' : Accounts between later after) :
    Accounts before (first ++ later) after := by
  induction h with
  | nil => exact h'
  | cons found other _ ih => exact .cons found other (ih h')

theorem foldl_eq {before after : α → Option State} {changes : List (α × State)}
    (h : Accounts before changes after) : changes.foldl restated before = after := by
  induction h with
  | nil => rfl
  | cons _ _ _ ih => rw [List.foldl_cons, ih]

/-- A change is from the state that the changes before it have led to, and to another one. -/
theorem exists_other {before after : α → Option State} {changes first later : List (α × State)}
    {change : α × State} (h : Accounts before changes after)
    (split : changes = first ++ change :: later) :
    ∃ old, first.foldl restated before change.1 = some old ∧ old ≠ change.2 := by
  induction h generalizing first with
  | nil => simp at split
  | cons found other _ ih =>
      cases first with
      | nil =>
          injection split with hc
          subst hc
          exact ⟨_, found, other⟩
      | cons c first =>
          rw [List.cons_append] at split
          injection split with hc hs
          subst hc
          exact ih hs

/-- Changes account for the same when addresses are extended, if all else stays as it is. -/
theorem extend {f : α → β} (inj : ∀ a b, f a = f b → a = b) {before after : α → Option State}
    {changes : List (α × State)} (h : Accounts before changes after)
    {before' after' : β → Option State} (hbefore : ∀ a, before' (f a) = before a)
    (hafter : ∀ a, after' (f a) = after a)
    (frame : ∀ b, (∀ a, f a ≠ b) → after' b = before' b) :
    Accounts before' (changes.map fun change => (f change.1, change.2)) after' := by
  induction h generalizing before' with
  | nil states =>
      have hsame : before' = after' := by
        funext b
        by_cases hb : ∃ a, f a = b
        · obtain ⟨a, rfl⟩ := hb
          rw [hbefore, hafter]
        · exact (frame b fun a ha => hb ⟨a, ha⟩).symm
      rw [hsame]
      exact .nil after'
  | @cons before after change changes old found other h ih =>
      refine .cons ((hbefore _).trans found) other (ih ?_ hafter ?_)
      · intro a
        by_cases ha : a = change.1
        · rw [restated, restated, if_pos ha, if_pos (congrArg f ha)]
        · rw [restated, restated, if_neg ha, if_neg fun hf => ha (inj _ _ hf), hbefore]
      · intro b hb
        rw [restated, if_neg (hb change.1).symm]
        exact frame b hb

end Accounts

namespace Component

/-- The states of the parts. -/
def states (c : Component) (p : List Nat) : Option State :=
  (c.item? p).map state

/-- A change as an address below the component and a state. -/
def entry (change : ItemChange) : List Nat × State := (change.items, change.state)

theorem states_cons (c : Component) (i : Nat) (p : List Nat) :
    c.states (i :: p) = c.items[i]?.bind fun d => d.states p := by
  rw [states, item?_cons, Option.map_bind]
  rfl

theorem states_sheet_cons (name : String) (state : State) (orientation : Orientation)
    (items : List Component) (i : Nat) (p : List Nat) :
    (Component.sheet name state orientation items).states (i :: p) =
      items[i]?.bind fun d => d.states p :=
  states_cons _ i p

/-- Between components with the same items, their own change is all there is. -/
theorem accounts_changed {c d : Component} (same : d.items = c.items) :
    Accounts c.states ((changed c.state d.state).map entry) d.states := by
  have below : ∀ i p, d.states (i :: p) = c.states (i :: p) := by
    intro i p
    rw [states_cons, states_cons, same]
  have self : ∀ e : Component, e.states [] = some e.state := by
    intro e
    rw [states, item?_nil, Option.map_some]
  by_cases h : d.state = c.state
  · have hstates : c.states = d.states := by
      funext p
      cases p with
      | nil => rw [self, self, h]
      | cons i p => rw [below]
    rw [h, changed_self, hstates]
    exact .nil d.states
  · rw [changed, if_neg h]
    have hstates : restated c.states ([], d.state) = d.states := by
      funext p
      cases p with
      | nil => rw [restated, if_pos rfl, self]
      | cons i p => rw [restated, if_neg (List.cons_ne_nil _ _), below]
    refine .cons (self c) (Ne.symm h) ?_
    show Accounts (restated c.states ([], d.state)) [] d.states
    rw [hstates]
    exact .nil d.states

/-- What an interaction reports accounts for the states afterwards. -/
theorem Responds.accounts {i : Interaction} {p : List Nat} {c d : Component}
    {changes : List ItemChange} (h : Responds i p c d changes) :
    Accounts c.states (changes.map entry) d.states := by
  induction h with
  | addressed h => exact accounts_changed h.items_eq
  | @within items index rest item item' changes name state orientation hi h ih =>
      rw [List.map_append]
      have hlt : index < items.length := (List.getElem?_eq_some_iff.1 hi).1
      -- First the item is exchanged, then the sheet settles.
      let exchanged : Component := .sheet name state orientation (items.set index item')
      have hmap : (changes.map (ItemChange.below index)).map entry =
          (changes.map entry).map fun change => (index :: change.1, change.2) := by
        rw [List.map_map, List.map_map]
        rfl
      have hbelow : Accounts (Component.sheet name state orientation items).states
          ((changes.map (ItemChange.below index)).map entry) exchanged.states := by
        rw [hmap]
        refine ih.extend (fun _ _ heq => List.tail_eq_of_cons_eq heq) ?_ ?_ ?_
        · intro q
          rw [states_sheet_cons, hi, Option.bind_some]
        · intro q
          rw [states_sheet_cons, List.getElem?_set_self hlt, Option.bind_some]
        · intro q hq
          cases q with
          | nil => rfl
          | cons j q =>
              have hj : index ≠ j := fun hj => hq q (by rw [hj])
              rw [states_sheet_cons, states_sheet_cons, List.getElem?_set_ne hj]
      have hself : Accounts exchanged.states _ (Component.sheet name
          (settled state item item' (items.set index item')) orientation
            (items.set index item')).states := accounts_changed rfl
      exact hbelow.append hself

end Component

end GuidedLab
