import GuidedLab.Proofs.Script.Run
import GuidedLab.Proofs.Script.Turns
import GuidedLab.Proofs.Tree.Account

/-!
# What listeners are told

A subscription is served while it is the latest one and has not been ended. `IsLatest` says so of the
turns that have been taken: some turn handed the subscription out, and after it there was neither
another subscription nor the end of this one. The script keeps no such history, only the number of the
subscription that is served; the two agree after all turns (`served_afterTurns_iff`).

`owed` is what a listener ought to be told: of each turn taken while its subscription was the latest,
the changes that the turn reports, once and in order, with the tree after the turn. That is what it is
told (`received_eq_owed`). The changes of all turns together account for the states at the end, unless
a snapshot was taken back on the way (`accounts_afterTurns`).
-/

namespace GuidedLab

namespace Script

/-- After turns, a subscription is the latest one and has not been ended: it was handed out in one of
the turns or, if there was no such turn, was served before them. -/
def IsLatest (s : Script) (turns : List Turn) (n : Nat) : Prop :=
  (∃ before later, turns = before ++ .subscribe :: later ∧ (s.afterTurns before).subscribe.2 = n ∧
    .subscribe ∉ later ∧ .unsubscribe n ∉ later) ∨
  (s.served = some n ∧ .subscribe ∉ turns ∧ .unsubscribe n ∉ turns)

theorem isLatest_nil {s : Script} {n : Nat} : s.IsLatest [] n ↔ s.served = some n := by
  simp [IsLatest]

/-- Which subscription is served after a turn. -/
theorem served_turn_iff {s : Script} {t : Turn} {n : Nat} :
    (s.turn t).script.served = some n ↔
      (t = .subscribe ∧ s.subscribe.2 = n) ∨
      (s.served = some n ∧ t ≠ .subscribe ∧ t ≠ .unsubscribe n) := by
  by_cases hs : t = .subscribe
  · subst hs
    simp [turn, subscribe]
  by_cases hu : ∃ m, t = .unsubscribe m
  · obtain ⟨m, rfl⟩ := hu
    rw [turn, unsubscribe]
    by_cases h : s.served = some m
    · rw [if_pos h]
      simp [h, eq_comm]
    · have hm : s.served = some n → m ≠ n := by
        rintro hn rfl
        exact h hn
      rw [if_neg h]
      simpa using hm
  · obtain ⟨tree, lastError, h⟩ := s.script_turn_eq hs fun m hm => hu ⟨m, hm⟩
    have hn : t ≠ .unsubscribe n := fun hn => hu ⟨n, hn⟩
    rw [h]
    simp [hs, hn]

theorem isLatest_cons {s : Script} {t : Turn} {rest : List Turn} {n : Nat} :
    s.IsLatest (t :: rest) n ↔ (s.turn t).script.IsLatest rest n := by
  constructor
  · rintro (⟨before, later, hsplit, hn, hs, hu⟩ | ⟨hserved, hs, hu⟩)
    · -- it was handed out in this turn, or in one of the rest
      cases before with
      | nil =>
          injection hsplit with ht hrest
          subst ht hrest
          exact Or.inr ⟨served_turn_iff.2 (Or.inl ⟨rfl, hn⟩), hs, hu⟩
      | cons t' before =>
          injection hsplit with ht hrest
          subst ht
          exact Or.inl ⟨before, later, hrest, hn, hs, hu⟩
    · rw [List.mem_cons, not_or] at hs hu
      exact Or.inr ⟨served_turn_iff.2 (Or.inr ⟨hserved, Ne.symm hs.1, Ne.symm hu.1⟩), hs.2, hu.2⟩
  · rintro (⟨before, later, hsplit, hn, hs, hu⟩ | ⟨hserved, hs, hu⟩)
    · exact Or.inl ⟨t :: before, later, by rw [hsplit, List.cons_append], hn, hs, hu⟩
    · rcases served_turn_iff.1 hserved with ⟨rfl, hn⟩ | ⟨hserved, hts, htu⟩
      · exact Or.inl ⟨[], rest, rfl, hn, hs, hu⟩
      · refine Or.inr ⟨hserved, ?_, ?_⟩
        · exact List.not_mem_cons_of_ne_of_not_mem (Ne.symm hts) hs
        · exact List.not_mem_cons_of_ne_of_not_mem (Ne.symm htu) hu

/-- The subscription that is served is the latest one, unless that has been ended. -/
theorem served_afterTurns_iff {s : Script} {turns : List Turn} {n : Nat} :
    (s.afterTurns turns).served = some n ↔ s.IsLatest turns n := by
  induction turns generalizing s with
  | nil => exact isLatest_nil.symm
  | cons t rest ih => rw [afterTurns_cons, ih, isLatest_cons]

instance (s : Script) (turns : List Turn) (n : Nat) : Decidable (s.IsLatest turns n) :=
  decidable_of_iff ((s.afterTurns turns).served = some n) served_afterTurns_iff

/-- What the listener of a subscription is told in the course of turns. -/
def received (s : Script) (turns : List Turn) (n : Nat) : List Delivery :=
  (s.deliveredIn turns).filter fun d => d.subscription = n

/-- What the listener of a subscription ought to be told of turns, after those of the past. -/
def owed (s : Script) (n : Nat) (past : List Turn) : List Turn → List Delivery
  | [] => []
  | t :: rest =>
    let o := (s.afterTurns past).turn t
    (if s.IsLatest past n then o.changes.map fun change => ⟨n, change, o.script.tree⟩ else []) ++
      s.owed n (past ++ [t]) rest

theorem filter_deliveries (s : Script) (changes : List Tree.Change) (n : Nat) :
    (s.deliveries changes).filter (fun d => d.subscription = n) =
      if s.served = some n then changes.map fun change => ⟨n, change, s.tree⟩ else [] := by
  rw [deliveries]
  cases s.served with
  | none => simp
  | some m =>
      by_cases h : m = n
      · subst h
        rw [if_pos rfl, List.filter_eq_self]
        intro d hd
        obtain ⟨change, -, rfl⟩ := List.mem_map.1 hd
        simp
      · rw [if_neg fun e => h (Option.some.inj e), List.filter_eq_nil_iff]
        intro d hd
        obtain ⟨change, -, rfl⟩ := List.mem_map.1 hd
        simp [h]

/-- A turn that reports a change leaves the subscriptions alone. -/
theorem served_turn_of_changes {s : Script} {t : Turn} (h : (s.turn t).changes ≠ []) :
    (s.turn t).script.served = s.served := by
  by_cases hs : t = .subscribe
  · subst hs
    exact absurd rfl h
  by_cases hu : ∃ m, t = .unsubscribe m
  · obtain ⟨m, rfl⟩ := hu
    exact absurd rfl h
  · obtain ⟨tree, lastError, ht⟩ := s.script_turn_eq hs fun m hm => hu ⟨m, hm⟩
    rw [ht]

theorem filter_deliveries_turn (s : Script) (t : Turn) (n : Nat) :
    (s.turn t).deliveries.filter (fun d => d.subscription = n) =
      if s.served = some n then
        (s.turn t).changes.map fun change => ⟨n, change, (s.turn t).script.tree⟩
      else [] := by
  rw [Outcome.deliveries, filter_deliveries]
  by_cases h : (s.turn t).changes = []
  · rw [h]
    simp
  · rw [served_turn_of_changes h]

/-- A listener is told what it ought to be told. -/
theorem received_eq_owed (s : Script) (n : Nat) (past turns : List Turn) :
    (s.afterTurns past).received turns n = s.owed n past turns := by
  -- the past is generalized, because what is owed for a turn depends on all turns before it
  induction turns generalizing past with
  | nil => rfl
  | cons t rest ih =>
      have hrest := ih (past ++ [t])
      rw [afterTurns_append, afterTurns_cons, afterTurns_nil, received] at hrest
      rw [received, deliveredIn, List.filter_append, filter_deliveries_turn, hrest, owed]
      simp only [served_afterTurns_iff]

/-! ### Changes that account for the states -/

/-- What an operation of a script reports accounts for the states after it. -/
theorem accounts_turn {s : Script} {t : Turn} (noLoad : ∀ archive, t ≠ .load archive) :
    Accounts s.tree.states ((s.turn t).changes.map Tree.Change.entry)
      (s.turn t).script.tree.states := by
  have interacted : ∀ a i, Accounts s.tree.states
      (((s.interact a i).2.toOption.getD []).map Tree.Change.entry)
      (s.interact a i).1.tree.states := by
    intro a i
    rcases s.interact_cases a i with ⟨tree, changes, hr, h⟩ | ⟨f, -, h⟩
    · rw [h]
      exact Tree.accounts_respond? hr
    · rw [h]
      exact .nil _
  have remembered : ∀ {α : Type} (r : Except Fault α), (s.remembering r).tree = s.tree := by
    intro α r
    cases r <;> rfl
  cases t with
  | subscribe => exact .nil _
  | unsubscribe n =>
      rw [turn, unsubscribe]
      split <;> exact .nil _
  | check =>
      rw [turn, check, remembered]
      exact .nil _
  | save archive =>
      rw [turn, save, remembered]
      exact .nil _
  | start =>
      rw [turn]
      rcases s.start_cases with h | ⟨c, hc, -, h⟩
      · rw [h]
        exact .nil _
      · rw [h]
        apply Tree.accounts_set hc
        have hself := Component.accounts_changed (Component.items_withState .ongoing c)
        rwa [Component.state_withState] at hself
  | interact a i => exact interacted a i
  | override a state => exact interacted a (.override state)
  | load archive => exact absurd rfl (noLoad archive)

theorem accounts_afterTurns (s : Script) {turns : List Turn}
    (noLoad : ∀ archive, .load archive ∉ turns) :
    Accounts s.tree.states ((s.changesIn turns).map Tree.Change.entry)
      (s.afterTurns turns).tree.states := by
  induction turns generalizing s with
  | nil => exact .nil _
  | cons t rest ih =>
      have hturn : Accounts s.tree.states ((s.turn t).changes.map Tree.Change.entry)
          (s.turn t).script.tree.states := by
        apply accounts_turn
        rintro archive rfl
        exact noLoad archive List.mem_cons_self
      rw [changesIn, List.map_append, afterTurns_cons]
      exact hturn.append (ih _ fun archive hm => noLoad archive (List.mem_cons_of_mem _ hm))

theorem not_isLatest_of_none {s : Script} (h : s.served = none) {turns : List Turn}
    (hs : .subscribe ∉ turns) (n : Nat) : ¬ s.IsLatest turns n := by
  rintro (⟨before, later, rfl, -⟩ | ⟨hserved, -⟩)
  · exact hs (List.mem_append_right _ List.mem_cons_self)
  · rw [h] at hserved
    cases hserved

/-- In the course of any turns a listener is told exactly what it ought to be told. The end of a
subscription that is not the latest leaves the latest one as it is, and the end of the latest one
brings none back. The changes of all turns, applied one after the other to the states at the start,
give the states at the end, and each of them is from another state than before. -/
theorem told_exactly (s : Script) (turns : List Turn) :
    (∀ n, s.received turns n = s.owed n [] turns) ∧
    (∀ n m, s.IsLatest turns n → m ≠ n → s.IsLatest (turns ++ [.unsubscribe m]) n) ∧
    (∀ n m later, s.IsLatest turns n → .subscribe ∉ later →
      ¬ s.IsLatest (turns ++ .unsubscribe n :: later) m) ∧
    ((∀ archive, .load archive ∉ turns) →
      ((s.changesIn turns).map Tree.Change.entry).foldl restated s.tree.states =
        (s.afterTurns turns).tree.states ∧
      ∀ first change later, s.changesIn turns = first ++ change :: later →
        ∃ old, (first.map Tree.Change.entry).foldl restated s.tree.states change.address =
          some old ∧ old ≠ change.state) := by
  refine ⟨fun n => s.received_eq_owed n [] turns, ?_, ?_, ?_⟩
  · intro n m h hne
    rw [← served_afterTurns_iff, afterTurns_append, afterTurns_cons, afterTurns_nil,
      served_turn_iff]
    refine Or.inr ⟨served_afterTurns_iff.2 h, Turn.noConfusion, ?_⟩
    rintro ⟨⟩
    exact hne rfl
  · intro n m later h hs
    have hended : ((s.afterTurns turns).turn (.unsubscribe n)).script.served = none := by
      rw [turn, unsubscribe, if_pos (served_afterTurns_iff.2 h)]
    rw [← served_afterTurns_iff, afterTurns_append, afterTurns_cons, served_afterTurns_iff]
    exact not_isLatest_of_none hended hs m
  · intro noLoad
    have haccounts := s.accounts_afterTurns noLoad
    refine ⟨haccounts.foldl_eq, ?_⟩
    intro first change later hsplit
    have hentries : (s.changesIn turns).map Tree.Change.entry =
        first.map Tree.Change.entry ++ change.entry :: later.map Tree.Change.entry := by
      rw [hsplit, List.map_append, List.map_cons]
    exact haccounts.exists_other hentries

/-- Turns with two subscriptions, of which the first is ended when it has been replaced. -/
def overlappingTurns : List Turn :=
  [.subscribe, .interact ⟨0, [0]⟩ (.check true), .subscribe, .unsubscribe 1,
    .interact ⟨0, [1]⟩ (.answer "0.4 s"), .unsubscribe 2, .override ⟨0, [0]⟩ .ongoing]

theorem told_exactly_overlapping :
    (sample.received overlappingTurns 1).map Delivery.change = [⟨⟨0, [0]⟩, .plainlyDone⟩] ∧
    (sample.received overlappingTurns 2).map Delivery.change =
      [⟨⟨0, [1]⟩, .plainlyDone⟩, ⟨⟨0, []⟩, .plainlyDone⟩] ∧
    ((sample.changesIn overlappingTurns).map Tree.Change.entry).foldl restated
        sample.tree.states ⟨0, []⟩ = some .ongoing := by
  obtain ⟨hreceived, -, -, hstates⟩ := told_exactly sample overlappingTurns
  have noLoad : ∀ archive, Turn.load archive ∉ overlappingTurns := by
    intro archive h
    simp [overlappingTurns] at h
  refine ⟨?_, ?_, ?_⟩
  · rw [hreceived]
    rfl
  · rw [hreceived]
    rfl
  · rw [(hstates noLoad).1]
    rfl

end Script

end GuidedLab
