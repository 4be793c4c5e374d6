import Mathlib.Data.List.Infix
import GuidedLab.Proofs.Component.Account

/-!
# The exact effect of an interaction

An interaction takes effect on the way to the part it addresses: on that part and on the sheets around
it, which are at the prefixes of its positions. `p.inits.reverse` lists them from the addressed part
outwards, and what is reported are those in it that are in another state afterwards
(`Responds.map_items_eq_filter`). A sheet settles only if the item below it on the way has changed its state,
so from the first part that keeps its state on, all the others keep theirs (`Responds.map_items_prefix`).

Of a sheet on the way, only the state and the one item can be others (`Responds.around`). The same
interaction once more finds everything as it would leave it (`Responds.again`).
-/

namespace GuidedLab

/-- An element that has reacted reacts the same way once more. -/
theorem Element.Reacts.again {i : Interaction} {e e' : Element} {s : State} (h : Reacts i e s e') :
    Reacts i e' s e' := by
  cases h with
  | override s e => exact .override s e
  | check ticked text => exact .check ticked text
  | answer s q => exact .answer s { q with answer := s }
  | optional optional q => exact .optional optional { q with optional }
  | record path e contained => exact .record path { e with path := some path } contained

namespace Component

variable {i : Interaction} {p q : List Nat} {c d : Component} {changes : List ItemChange}

theorem Reacts.again (h : c.Reacts i d) : d.Reacts i d := by
  cases h with
  | leaf name before h => exact .leaf name _ h.again
  | sheet name before state orientation items => exact .sheet name state state orientation items

/-- The same interaction once more changes nothing and reports nothing. -/
theorem Responds.again (h : Responds i p c d changes) : Responds i p d d [] := by
  induction h with
  | @addressed c d h =>
      have hself := Responds.addressed h.again
      rwa [changed_self] at hself
  | @within items index rest item item' changes name state orientation hi h ih =>
      have hlt : index < items.length := (List.getElem?_eq_some_iff.1 hi).1
      have hset : (items.set index item')[index]? = some item' := List.getElem?_set_self hlt
      have hagain := Responds.within name (settled state item item' (items.set index item')) orientation
        hset ih
      rwa [settled_of_eq rfl, List.set_set, changed_self] at hagain

theorem states_nil (c : Component) : c.states [] = some c.state := by
  rw [states, item?_nil, Option.map_some]

/-- A change that is told of the component itself is one at no position. -/
theorem map_items_changed (c d : Component) :
    (changed c.state d.state).map ItemChange.items =
      [[]].filter fun q => d.states q ≠ c.states q := by
  by_cases h : d.state = c.state
  · rw [h, changed_self, List.filter_singleton, states_nil, states_nil, h]
    simp
  · rw [changed, if_neg h, List.filter_singleton, states_nil, states_nil]
    simp [h]

theorem map_items_below (index : Nat) (changes : List ItemChange) :
    (changes.map (ItemChange.below index)).map ItemChange.items =
      (changes.map ItemChange.items).map (index :: ·) := by
  rw [List.map_map, List.map_map]
  rfl

/-- The way to a part goes from the item it is in outwards to the sheet itself. -/
theorem reverse_inits_cons (index : Nat) (rest : List Nat) :
    (index :: rest).inits.reverse = rest.inits.reverse.map (index :: ·) ++ [[]] := by
  rw [List.inits_cons, List.reverse_cons, List.map_reverse]

/-- The parts on the way that are in another state are reported, the addressed one first. -/
theorem Responds.map_items_eq_filter (h : Responds i p c d changes) :
    changes.map ItemChange.items = p.inits.reverse.filter fun q => d.states q ≠ c.states q := by
  induction h with
  | @addressed c d h => exact map_items_changed c d
  | @within items index rest item item' changes name state orientation hi h ih =>
      have hlt : index < items.length := (List.getElem?_eq_some_iff.1 hi).1
      have hself := map_items_changed (.sheet name state orientation items)
        (.sheet name (settled state item item' (items.set index item')) orientation
          (items.set index item'))
      rw [List.map_append, map_items_below, ih, reverse_inits_cons, List.filter_append,
        List.filter_map]
      congr 2
      apply List.filter_congr
      intro q _
      rw [Function.comp_apply, states_sheet_cons, states_sheet_cons, List.getElem?_set_self hlt, hi,
        Option.bind_some, Option.bind_some]

/-- Where the component itself is in another state, all parts on the way are. -/
theorem Responds.states_ne (h : Responds i p c d changes) (ne : d.state ≠ c.state) (on : q <+: p) :
    d.states q ≠ c.states q := by
  induction h generalizing q with
  | addressed h =>
      rw [List.prefix_nil.1 on, states_nil, states_nil]
      exact fun he => ne (Option.some.inj he)
  | @within items index rest item item' changes name state orientation hi h ih =>
      cases q with
      | nil =>
          rw [states_nil, states_nil]
          exact fun he => ne (Option.some.inj he)
      | cons j q =>
          obtain ⟨rfl, on'⟩ := List.cons_prefix_cons.1 on
          have hlt : j < items.length := (List.getElem?_eq_some_iff.1 hi).1
          rw [states_sheet_cons, states_sheet_cons, List.getElem?_set_self hlt, hi]
          -- a sheet that is in another state has settled, so its item is in another state
          apply ih _ on'
          intro he
          exact ne (settled_of_eq he _ _)

/-- The change of a component itself is the first on the way that ends with it. -/
theorem map_items_changed_prefix (before after : State) :
    (changed before after).map ItemChange.items <+: [[]] := by
  rw [changed]
  split
  · exact List.nil_prefix
  · exact List.prefix_rfl

/-- The reported parts follow each other without a gap, from the addressed one on. -/
theorem Responds.map_items_prefix (h : Responds i p c d changes) :
    changes.map ItemChange.items <+: p.inits.reverse := by
  induction h with
  | @addressed c d h => exact map_items_changed_prefix c.state d.state
  | @within items index rest item item' changes name state orientation hi h ih =>
      rw [List.map_append, map_items_below, reverse_inits_cons]
      by_cases he : item'.state = item.state
      · rw [settled_of_eq he, changed_self, List.map_nil, List.append_nil]
        exact (ih.map _).trans (List.prefix_append _ _)
      · -- below the sheet everything on the way is reported, so the sheet itself comes next
        have hall : changes.map ItemChange.items = rest.inits.reverse := by
          rw [h.map_items_eq_filter, List.filter_eq_self]
          intro q hq
          rw [List.mem_reverse, List.mem_inits] at hq
          rw [decide_eq_true_eq]
          exact h.states_ne he hq
        rw [hall, List.prefix_append_right_inj]
        exact map_items_changed_prefix state _

theorem states_of_mem_changed {before : State} {change : ItemChange}
    (mem : change ∈ changed before c.state) : c.states change.items = some change.state := by
  rw [changed] at mem
  split at mem
  · cases mem
  · rw [List.mem_singleton.1 mem, states_nil]

/-- A reported state is the one that the part is in afterwards. -/
theorem Responds.states_of_mem (h : Responds i p c d changes) {change : ItemChange}
    (mem : change ∈ changes) : d.states change.items = some change.state := by
  induction h generalizing change with
  | addressed h => exact states_of_mem_changed mem
  | @within items index rest item item' changes name state orientation hi h ih =>
      rcases List.mem_append.1 mem with mem | mem
      · obtain ⟨inner, hinner, rfl⟩ := List.mem_map.1 mem
        have hlt : index < items.length := (List.getElem?_eq_some_iff.1 hi).1
        show Component.states _ (index :: inner.items) = some inner.state
        rw [states_sheet_cons, List.getElem?_set_self hlt, Option.bind_some]
        exact ih hinner
      · exact states_of_mem_changed
          (c := .sheet name (settled state item item' (items.set index item')) orientation
            (items.set index item')) mem

/-- What is reported, part and state, is read off the way. -/
theorem Responds.map_entry_eq (h : Responds i p c d changes) :
    changes.map (fun change => (change.items, some change.state)) =
      (p.inits.reverse.filter fun q => d.states q ≠ c.states q).map fun q => (q, d.states q) := by
  rw [← h.map_items_eq_filter, List.map_map]
  apply List.map_congr_left
  intro change mem
  rw [Function.comp_apply, h.states_of_mem mem]

/-- A sheet on the way has exchanged the one item and has settled. -/
theorem Responds.around {index : Nat} (h : Responds i p c d changes) (on : q ++ [index] <+: p) :
    ∃ name state orientation items item item',
      c.item? q = some (.sheet name state orientation items) ∧ items[index]? = some item ∧
      d.item? q = some (.sheet name (settled state item item' (items.set index item')) orientation
        (items.set index item')) := by
  induction h generalizing q with
  | addressed h => exact absurd (List.prefix_nil.1 on) (List.append_ne_nil_of_right_ne_nil _ nofun)
  | @within items j rest item item' changes name state orientation hi h ih =>
      cases q with
      | nil =>
          obtain ⟨rfl, -⟩ := List.cons_prefix_cons.1 on
          exact ⟨name, state, orientation, items, item, item', item?_nil _, hi, item?_nil _⟩
      | cons k q =>
          obtain ⟨rfl, on'⟩ := List.cons_prefix_cons.1 on
          have hlt : k < items.length := (List.getElem?_eq_some_iff.1 hi).1
          rw [item?_sheet_cons, item?_sheet_cons, List.getElem?_set_self hlt, hi]
          exact ih on'

/-- The state that a sheet on the way is in afterwards. -/
theorem settled_eq (state : State) (item item' : Component) (items : List Component) :
    settled state item item' items =
      if item'.state = item.state then state
      else if items ≠ [] ∧ ∀ e ∈ items, e.state.isDone = true then .plainlyDone
      else .ongoing := by
  split
  · next h => exact settled_of_eq h state items
  · next h => rw [settled_of_ne h, State.ofAllDone, if_congr allDone_eq_true_iff rfl rfl]

/-- The way to a part begins at the part. -/
theorem exists_reverse_inits_eq (p : List Nat) : ∃ outer, p.inits.reverse = p :: outer := by
  induction p with
  | nil => exact ⟨[], rfl⟩
  | cons index rest ih =>
      obtain ⟨outer, houter⟩ := ih
      refine ⟨outer.map (index :: ·) ++ [[]], ?_⟩
      rw [reverse_inits_cons, houter, List.map_cons, List.cons_append]

/-- If anything is reported, the addressed part is in another state. -/
theorem Responds.eq_nil_of_states_eq (h : Responds i p c d changes)
    (same : d.states p = c.states p) : changes = [] := by
  have hrun := h.map_items_prefix
  have hfilter := h.map_items_eq_filter
  obtain ⟨outer, houter⟩ := exists_reverse_inits_eq p
  rw [houter] at hrun
  cases changes with
  | nil => rfl
  | cons change changes =>
      obtain ⟨hp, -⟩ := List.cons_prefix_cons.1 hrun
      have hmem : p ∈ (change :: changes).map ItemChange.items := by
        rw [List.map_cons, hp]
        exact List.mem_cons_self
      rw [hfilter, List.mem_filter, decide_eq_true_eq] at hmem
      exact absurd same hmem.2

/-- If nothing is reported, every part on the way is in the state it was in. -/
theorem Responds.states_eq_of_nil (h : Responds i p c d []) (on : q <+: p) :
    d.states q = c.states q := by
  have hfilter := h.map_items_eq_filter
  rw [List.map_nil, eq_comm, List.filter_eq_nil_iff] at hfilter
  have hq := hfilter q (List.mem_reverse.2 ((List.mem_inits q p).2 on))
  rw [decide_eq_true_eq] at hq
  exact not_not.1 hq

/-- What an interaction that addresses the part at `p` makes of a component, and what it reports. -/
structure Effect (p : List Nat) (c d : Component) (changes : List ItemChange) : Prop where
  /-- Reported are the parts on the way that are in another state, from `p` outwards. -/
  reported : changes.map (fun change => (change.items, some change.state)) =
    (p.inits.reverse.filter fun q => d.states q ≠ c.states q).map fun q => (q, d.states q)
  /-- They follow each other without a gap, and the first is the part at `p`. -/
  unbroken : changes.map ItemChange.items <+: p.inits.reverse
  /-- If the part at `p` keeps its state, so does every sheet around it. -/
  quiet : d.states p = c.states p → changes = [] ∧ ∀ q, q <+: p → d.states q = c.states q
  /-- A sheet around it exchanges the one item and takes the state of its items if that of the item
  changed. -/
  around : ∀ q index, q ++ [index] <+: p → ∃ name state orientation items item item',
    c.item? q = some (.sheet name state orientation items) ∧ items[index]? = some item ∧
    d.item? q = some (.sheet name
      (if item'.state = item.state then state
        else if items.set index item' ≠ [] ∧ ∀ e ∈ items.set index item', e.state.isDone = true then
          .plainlyDone
        else .ongoing)
      orientation (items.set index item'))
  /-- Every part that is not on the way stays as it is. -/
  frame : ∀ q, ¬ q <+: p → d.item? q = c.item? q

theorem Responds.effect (h : Responds i p c d changes) : Effect p c d changes where
  reported := h.map_entry_eq
  unbroken := h.map_items_prefix
  quiet := by
    intro same
    have hnil := h.eq_nil_of_states_eq same
    subst hnil
    exact ⟨rfl, fun q on => h.states_eq_of_nil on⟩
  around := by
    intro q index on
    obtain ⟨name, state, orientation, items, item, item', hc, hi, hd⟩ := h.around on
    rw [settled_eq] at hd
    exact ⟨name, state, orientation, items, item, item', hc, hi, hd⟩
  frame := fun _ off => h.frame off

/-- An accepted interaction has exactly its effect, and once more it has none. -/
theorem respond?_effect (h : c.respond? i p = .ok (d, changes)) :
    Effect p c d changes ∧ d.respond? i p = .ok (d, []) := by
  have hr := respond?_eq_ok_iff.1 h
  exact ⟨hr.effect, respond?_eq_ok_iff.2 hr.again⟩

/-- A checkbox in an overridden sheet in another one: all three are reported, the box first. -/
theorem respond?_effect_nested :
    ∃ c d : Component, ∃ changes : List ItemChange,
      c.respond? (.check true) [1, 0] = .ok (d, changes) ∧
      changes = [⟨[1, 0], .done 0⟩, ⟨[1], .done 0⟩, ⟨[], .ongoing⟩] ∧
      Effect [1, 0] c d changes ∧ d.respond? (.check true) [1, 0] = .ok (d, []) := by
  let box := Component.leaf "box" .ongoing (.checkbox "")
  let c := Component.sheet "outer" (.done 3) .vertical
    [box, .sheet "inner" .inactive .vertical [box]]
  have h : c.respond? (.check true) [1, 0] = .ok (_, _) := rfl
  exact ⟨c, _, _, h, rfl, respond?_effect h⟩

end Component

end GuidedLab
