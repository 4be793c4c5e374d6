import GuidedLab.Proofs.Component.Completion
import GuidedLab.Proofs.Script.Run

/-!
# Completion in every run

In a run in which no sheet is overridden and no snapshot is taken back, every sheet is in the state
of its items after every call, and an element that was never overridden is in the state that its
data dictates (`completion`). A start makes the root ongoing and could disturb this, but it does so
only to a root that is inactive, and a root is inactive only where it was overridden.

That sheets are current and that an element is due are two invariants. The first is about the whole
tree and needs no memory; the second is about one address, and its last tick goes along the run.
-/

namespace GuidedLab

namespace Tree

/-- Every sheet on every page is in the state of its items. -/
def IsCurrent (t : Tree) : Prop :=
  ∀ c ∈ t.components, c.Every Component.IsCurrent

/-- The element at an address, if one is there, is in the state that is due after a last tick. -/
def IsDueAt (t : Tree) (a : Address) (lastTick : Option Bool) : Prop :=
  ∀ name state element, t.at? a = some (.leaf name state element) →
    state = element.dueState lastTick

theorem isCurrent_set {t : Tree} (h : t.IsCurrent) (node : Nat) {d : Component}
    (hd : d.Every Component.IsCurrent) : (t.set node d).IsCurrent := by
  intro c hc
  rcases mem_components_set hc with rfl | hc
  · exact hd
  · exact h c hc

theorem every_of_component? {P : Component → Prop} {t : Tree}
    (h : ∀ c ∈ t.components, c.Every P) {node : Nat} {c : Component}
    (found : t.component? node = some c) : c.Every P :=
  h c (mem_components_iff.2 ⟨node, found⟩)

end Tree

namespace Script

/-- The last tick among accepted interactions with the component at an address. -/
def lastTick (a : Address) (taken : List (Address × Interaction)) : Option Bool :=
  (taken.filterMap fun x => if x.1 = a then x.2.tick? else none).getLast?

theorem lastTick_append (a : Address) (first later : List (Address × Interaction)) :
    lastTick a (first ++ later) = (lastTick a later).or (lastTick a first) := by
  rw [lastTick, List.filterMap_append, List.getLast?_append]
  rfl

@[simp] theorem lastTick_nil (a : Address) : lastTick a [] = none := rfl

theorem lastTick_singleton_self (a : Address) (i : Interaction) :
    lastTick a [(a, i)] = i.tick? := by
  rw [lastTick, List.filterMap_cons, if_pos rfl]
  cases i.tick? <;> rfl

theorem lastTick_singleton_of_ne {a b : Address} (h : b ≠ a) (i : Interaction) :
    lastTick a [(b, i)] = none := by
  rw [lastTick, List.filterMap_cons, if_neg h]
  rfl

/-- What a start does to a root that is not overridden is nothing. -/
theorem withState_ongoing_eq {c : Component} (h : c.state.le .ongoing = true)
    (hne : c.state ≠ .inactive) : c.withState .ongoing = c := by
  have hongoing : c.state = .ongoing := by
    cases hs : c.state with
    | inactive => exact absurd hs hne
    | ongoing => rfl
    | done b =>
        rw [hs, State.le, State.code, State.code, decide_eq_true_eq] at h
        omega
  rw [← hongoing, Component.withState_state]

/-- A call that overrides no sheet keeps every sheet current. -/
theorem Moves.isCurrent {call : Call} {taken : List (Address × Interaction)} {t u : Tree}
    (h : Moves call taken t u) (noLoad : ∀ archive, call ≠ .load archive)
    (gentle : ∀ a state c, call = .interact a (.override state) → t.at? a = some c → c.IsElement)
    (ht : t.IsCurrent) : u.IsCurrent := by
  cases h with
  | refused => exact ht
  | @interacted a i t c d changes found h =>
      apply Tree.isCurrent_set ht
      refine h.every_isCurrent ?_ (Tree.every_of_component? ht found)
      intro hover e he
      cases i with
      | override state =>
          apply gentle a state e rfl
          rw [Tree.at?, found, Option.bind_some, he]
      | _ => exact hover.elim
  | @started t c found h =>
      apply Tree.isCurrent_set ht
      have hc : c.Every Component.IsCurrent := Tree.every_of_component? ht found
      apply hc.withState
      cases c with
      | leaf name state element => exact trivial
      | sheet name state orientation items =>
          have hself : state = State.ofAllDone (Component.allDone items) := hc.self
          have hne : (Component.sheet name state orientation items).state ≠ .inactive := by
            rw [Component.state, hself]
            exact State.ofAllDone_ne_inactive _
          rw [withState_ongoing_eq h hne]
          exact hc.self
  | loaded h => exact absurd rfl (noLoad _)

/-- An interaction that does not override the element at an address leaves it in the state that is due. -/
theorem isDueAt_set {t : Tree} {a b : Address} {i : Interaction} {c d : Component}
    {changes : List ItemChange} {before : Option Bool} (found : t.component? b.node = some c)
    (h : Component.Responds i b.items c d changes) (free : b = a → ¬ i.IsOverride)
    (ht : t.IsDueAt a before) : (t.set b.node d).IsDueAt a ((lastTick a [(b, i)]).or before) := by
  intro name state element hat
  by_cases hb : b = a
  · subst hb
    rw [lastTick_singleton_self]
    obtain ⟨e, e', he, hr, he'⟩ := h.target
    rw [Tree.at?_set_self found, he'] at hat
    cases hat
    cases hr with
    | leaf name before' hr => exact hr.state_eq (free rfl) before
  · rw [lastTick_singleton_of_ne hb, Option.none_or]
    have element' : (Component.leaf name state element).IsElement := trivial
    exact ht name state element ((Tree.at?_set_eq_some_iff found h (Ne.symm hb) element').1 hat)

/-- A start leaves an element in the state that is due: it changes the root only, and a root that is due
is not inactive. -/
theorem isDueAt_set_ongoing {t : Tree} {a : Address} {c : Component} {before : Option Bool}
    (found : t.component? 0 = some c) (h : c.state.le .ongoing = true) (ht : t.IsDueAt a before) :
    (t.set 0 (c.withState .ongoing)).IsDueAt a before := by
  intro name state element hat
  obtain ⟨node, items⟩ := a
  by_cases hnode : node = 0
  · subst hnode
    rw [Tree.at?, Tree.component?_set_self found, Option.bind_some] at hat
    have hold : ∀ p : List Nat, t.at? ⟨0, p⟩ = c.item? p := by
      intro p
      rw [Tree.at?, found, Option.bind_some]
    cases items with
    | nil =>
        cases c with
        | leaf name' state' element' =>
            have hdue : state' = element'.dueState before := ht _ _ _ (hold [])
            have hne : (Component.leaf name' state' element').state ≠ .inactive := by
              rw [Component.state, hdue]
              exact element'.dueState_ne_inactive before
            rw [withState_ongoing_eq h hne, Component.item?_nil] at hat
            cases hat
            exact hdue
        | sheet => cases hat
    | cons i p =>
        rw [Component.item?_withState_cons] at hat
        exact ht name state element (by rw [hold, hat])
  · rw [Tree.at?_set_of_ne (a := ⟨node, items⟩) hnode] at hat
    exact ht name state element hat

/-- A call that does not override the element at an address leaves it in the state that is due. -/
theorem Moves.isDueAt {call : Call} {taken : List (Address × Interaction)} {t u : Tree}
    (h : Moves call taken t u) {a : Address} {before : Option Bool}
    (noLoad : ∀ archive, call ≠ .load archive)
    (free : ∀ state, call ≠ .interact a (.override state)) (ht : t.IsDueAt a before) :
    u.IsDueAt a ((lastTick a taken).or before) := by
  cases h with
  | refused => exact ht
  | @interacted b i t c d changes found h =>
      refine isDueAt_set found h ?_ ht
      rintro rfl hover
      cases i with
      | override s => exact free s rfl
      | _ => exact hover
  | started found h =>
      rw [lastTick_nil, Option.none_or]
      exact isDueAt_set_ongoing found h ht
  | loaded h => exact absurd rfl (noLoad _)

/-- A run that overrides no sheet keeps every sheet current. -/
theorem isCurrent_after {s : Script} {calls : List Call} (noLoad : ∀ archive, .load archive ∉ calls)
    (gentle : ∀ a state c, .interact a (.override state) ∈ calls → s.tree.at? a = some c →
      c.IsElement) (h : s.tree.IsCurrent) : (s.after calls).tree.IsCurrent := by
  induction calls generalizing s with
  | nil => exact h
  | cons call calls ih =>
      rw [after_cons]
      apply ih
      · exact fun archive hm => noLoad archive (List.mem_cons_of_mem _ hm)
      · -- Where there was an element before the call, there is one after it.
        intro a state c hm hc
        have hlasting := Tree.at?_map_eq_of_withoutChanges_eq
          (moves_perform s call).withoutChanges_eq a
        rw [hc, Option.map_some] at hlasting
        obtain ⟨d, hd, hcd⟩ := Option.map_eq_some_iff.1 hlasting.symm
        rw [← Component.isElement_iff_of_withoutChanges_eq hcd]
        exact gentle a state d (List.mem_cons_of_mem _ hm) hd
      · refine (moves_perform s call).isCurrent ?_ ?_ h
        · rintro archive rfl
          exact noLoad archive List.mem_cons_self
        · rintro a state c rfl hc
          exact gentle a state c List.mem_cons_self hc

/-- A run that does not override the element at an address leaves it in the state that is due after
the last tick. -/
theorem isDueAt_after {s : Script} {calls : List Call} {a : Address} {before : Option Bool}
    (noLoad : ∀ archive, .load archive ∉ calls)
    (free : ∀ state, .interact a (.override state) ∉ calls) (h : s.tree.IsDueAt a before) :
    (s.after calls).tree.IsDueAt a ((lastTick a (s.accepted calls)).or before) := by
  induction calls generalizing s before with
  | nil => exact h
  | cons call calls ih =>
      rw [after_cons, accepted, lastTick_append, Option.or_assoc]
      apply ih
      · exact fun archive hm => noLoad archive (List.mem_cons_of_mem _ hm)
      · exact fun state hm => free state (List.mem_cons_of_mem _ hm)
      · refine (moves_perform s call).isDueAt ?_ ?_ h
        · rintro archive rfl
          exact noLoad archive List.mem_cons_self
        · rintro state rfl
          exact free state List.mem_cons_self

/-- After every run of a script as it is made in which no sheet is overridden, a sheet is done if it
has an item and all its items are done, and ongoing otherwise, and an element that was never
overridden is in the state that its data and the last accepted tick dictate. -/
theorem completion {s : Script} (made : s.Made) {calls : List Call}
    (noLoad : ∀ archive, .load archive ∉ calls)
    (gentle : ∀ a state c, .interact a (.override state) ∈ calls → s.tree.at? a = some c →
      c.IsElement) (a : Address) :
    (∀ name state orientation items,
      (s.after calls).tree.at? a = some (.sheet name state orientation items) →
        state =
          if items ≠ [] ∧ ∀ c ∈ items, c.state.isDone = true then .plainlyDone else .ongoing) ∧
    (∀ name state element, (s.after calls).tree.at? a = some (.leaf name state element) →
      (∀ state', .interact a (.override state') ∉ calls) →
        state = element.dueState (lastTick a (s.accepted calls))) := by
  constructor
  · intro name state orientation items hat
    have hcurrent : (s.after calls).tree.IsCurrent := by
      apply isCurrent_after noLoad gentle
      exact fun c hc => (made.every_isInitial c hc).mono fun _ => Component.IsInitial.isCurrent
    obtain ⟨c, hc, hitem⟩ := Option.bind_eq_some_iff.1 hat
    have hsheet := (Tree.every_of_component? hcurrent hc) a.items _ hitem
    have hsheet : state = State.ofAllDone (Component.allDone items) := hsheet
    rw [hsheet, State.ofAllDone]
    by_cases hall : Component.allDone items = true
    · rw [if_pos hall, if_pos (Component.allDone_eq_true_iff.1 hall)]
    · rw [if_neg hall, if_neg (mt Component.allDone_eq_true_iff.2 hall)]
  · intro name state element hat free
    have hstart : s.tree.IsDueAt a none := by
      intro name state element hat
      obtain ⟨c, hc, hitem⟩ := Option.bind_eq_some_iff.1 hat
      obtain ⟨hnew, hstate⟩ := (Tree.every_of_component? made.every_isInitial hc) a.items _ hitem
      rw [hstate, hnew.initialState_eq]
    have hdue := isDueAt_after noLoad free hstart name state element hat
    rwa [Option.or_none] at hdue

/-- A run with a start, a tick and a question that is overridden. -/
def tickedRun : List Call :=
  [.start, .interact ⟨0, [0]⟩ (.check true), .interact ⟨0, [1]⟩ (.override (.done 2))]

theorem completion_tickedRun :
    ((sample.after tickedRun).tree.at? ⟨0, []⟩).map Component.state = some .plainlyDone ∧
      ∀ name state element, (sample.after tickedRun).tree.at? ⟨0, [0]⟩ =
        some (.leaf name state element) → state = element.dueState (some true) := by
  have noLoad : ∀ archive, Call.load archive ∉ tickedRun := by
    intro archive h
    simp [tickedRun] at h
  have gentle : ∀ a state c, Call.interact a (.override state) ∈ tickedRun →
      sample.tree.at? a = some c → c.IsElement := by
    intro a state c hm hc
    simp [tickedRun] at hm
    obtain ⟨rfl, rfl⟩ := hm
    cases hc
    trivial
  have free : ∀ state, Call.interact ⟨0, [0]⟩ (.override state) ∉ tickedRun := by
    intro state h
    simp [tickedRun] at h
  constructor
  · cases hat : (sample.after tickedRun).tree.at? ⟨0, []⟩ with
    | none => cases hat
    | some c =>
        cases c with
        | leaf => cases hat
        | sheet name state orientation items =>
            have hsheet := (completion made_sample noLoad gentle ⟨0, []⟩).1 _ _ _ _ hat
            rw [Option.map_some, Component.state, hsheet]
            cases hat
            rfl
  · intro name state element hat
    exact (completion made_sample noLoad gentle ⟨0, [0]⟩).2 name state element hat free

end Script

end GuidedLab
