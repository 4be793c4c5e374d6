import GuidedLab.Proofs.Script.Run
import GuidedLab.Proofs.Script.Turns
import GuidedLab.Proofs.Tree.Walk

/-!
# What the check of a script finds

The check goes through the pages and, inside a sheet, through the items, and stops at a graph that is bound
to no experiment. The order in which it looks at the parts is that of a walk through the tree, so what it
names is the graph whose address precedes those of all other unbound graphs (`Tree.IsFirstUnbound`).

Graphs and their bindings are among what lasts in a script, and so are the addresses and their order. The
check may therefore be made before a run or at any moment of it: the verdict is the same, and it is about
the same graph (`Script.check_finds_first`).
-/

namespace GuidedLab

namespace Component

/-- Whether a component is a graph that is bound to no experiment. -/
def isUnbound : Component → Bool
  | .leaf _ _ (.graph g) => g.experiment.isNone
  | _ => false

/-- What is found first among items is found first on the walks through them, one after the other. -/
theorem firstUnboundGraph?_eq_find? {items : List Component}
    (each : ∀ c ∈ items, c.unboundGraph? = ((c.walk.map Prod.snd).find? isUnbound).map name) :
    firstUnboundGraph? items =
      ((items.flatMap fun c => c.walk.map Prod.snd).find? isUnbound).map name := by
  induction items with
  | nil => rfl
  | cons c rest ih =>
      rw [firstUnboundGraph?, List.flatMap_cons, List.find?_append, Option.map_or,
        each c List.mem_cons_self, ih fun d hd => each d (List.mem_cons_of_mem _ hd)]

/-- The first unbound graph of a component is the first one on a walk. -/
theorem unboundGraph?_eq_find? (c : Component) :
    c.unboundGraph? = ((c.walk.map Prod.snd).find? isUnbound).map name := by
  induction c using Component.induction with
  | leaf name state element =>
      cases element with
      | graph g =>
          rw [unboundGraph?, walk, List.map_singleton, List.find?_singleton, isUnbound]
          split <;> rfl
      | _ => rfl
  | sheet name state orientation items ih =>
      rw [unboundGraph?, map_snd_walk_sheet, List.find?_cons_of_neg (by exact Bool.false_ne_true)]
      exact firstUnboundGraph?_eq_find? ih

theorem isUnbound_erased (c : Component) : c.withoutChanges.isUnbound = c.isUnbound := by
  cases c with
  | leaf name state element => cases element <;> rfl
  | sheet name state orientation items => rfl

end Component

namespace Tree

variable {t u : Tree} {a b : Address} {c : Component} {name : String} {f : Fault}

theorem Precedes.asymm (h : t.Precedes a b) : ¬ t.Precedes b a := by
  rcases h with h | ⟨hnode, h⟩
  · rintro (h' | ⟨hnode, -⟩)
    · exact Nat.lt_asymm h h'
    · rw [hnode] at h
      exact Nat.lt_irrefl _ h
  · rintro (h' | ⟨-, h'⟩)
    · rw [hnode] at h'
      exact Nat.lt_irrefl _ h'
    · exact List.lt_asymm h h'

/-- What is found first on a walk is what precedes everything else of its kind. -/
theorem find?_walk_eq_some_iff {p : Component → Bool} :
    (t.walk.find? fun part => p part.2) = some (a, c) ↔
      t.at? a = some c ∧ p c = true ∧
        ∀ b d, t.at? b = some d → t.Precedes b a → p d = false := by
  have hordered := t.pairwise_walk
  rw [List.find?_eq_some_iff_append, ← mem_walk_iff]
  constructor
  · rintro ⟨hc, before, after, hwalk, hbefore⟩
    have hmem : (a, c) ∈ t.walk := by
      rw [hwalk]
      exact List.mem_append_right _ List.mem_cons_self
    refine ⟨hmem, hc, fun b d hd hb => ?_⟩
    rw [hwalk, List.pairwise_append, List.pairwise_cons] at hordered
    rw [← mem_walk_iff, hwalk, List.mem_append, List.mem_cons] at hd
    -- what precedes the part comes before it on the walk
    rcases hd with hd | hd | hd
    · simpa using hbefore _ hd
    · exact absurd (Prod.mk.inj hd).1 hb.ne
    · exact absurd hb (hordered.2.1.1 _ hd).asymm
  · rintro ⟨hmem, hc, hfirst⟩
    obtain ⟨before, after, hwalk⟩ := List.append_of_mem hmem
    refine ⟨hc, before, after, hwalk, fun part hpart => ?_⟩
    rw [hwalk, List.pairwise_append] at hordered
    have hat : t.at? part.1 = some part.2 := by
      rw [← mem_walk_iff, hwalk]
      exact List.mem_append_left _ hpart
    rw [hfirst _ _ hat (hordered.2.2 part hpart _ List.mem_cons_self), Bool.not_false]

/-- At an address there is a graph of some name that is bound to no experiment. -/
def IsUnboundAt (t : Tree) (a : Address) (name : String) : Prop :=
  ∃ c, t.at? a = some c ∧ c.isUnbound = true ∧ c.name = name

/-- The graph at an address is bound to no experiment, and none that is precedes it. -/
structure IsFirstUnbound (t : Tree) (a : Address) (name : String) : Prop where
  unbound : t.IsUnboundAt a name
  first : ∀ b other, t.Precedes b a → ¬ t.IsUnboundAt b other

/-- The graph that precedes all others is the first on a walk. -/
theorem isFirstUnbound_iff :
    t.IsFirstUnbound a name ↔
      ∃ c, (t.walk.find? fun part => part.2.isUnbound) = some (a, c) ∧ c.name = name := by
  simp only [find?_walk_eq_some_iff]
  constructor
  · rintro ⟨⟨c, hc, hunbound, hname⟩, hfirst⟩
    refine ⟨c, ⟨hc, hunbound, fun b d hd hb => ?_⟩, hname⟩
    rw [← Bool.not_eq_true]
    exact fun h => hfirst b d.name hb ⟨d, hd, h, rfl⟩
  · rintro ⟨c, ⟨hc, hunbound, hfirst⟩, hname⟩
    refine ⟨⟨c, hc, hunbound, hname⟩, ?_⟩
    rintro b other hb ⟨d, hd, h, -⟩
    rw [hfirst b d hd hb] at h
    cases h

/-- Where a graph is unbound, one is the first. -/
theorem exists_isFirstUnbound (h : t.IsUnboundAt a name) : ∃ b first, t.IsFirstUnbound b first := by
  obtain ⟨c, hc, hunbound, -⟩ := h
  have hsome : (t.walk.find? fun part => part.2.isUnbound).isSome = true :=
    List.find?_isSome.2 ⟨(a, c), mem_walk_iff.2 hc, hunbound⟩
  obtain ⟨⟨b, d⟩, hfind⟩ := Option.isSome_iff_exists.1 hsome
  exact ⟨b, d.name, isFirstUnbound_iff.2 ⟨d, hfind, rfl⟩⟩

/-- A check fails without a tree, and otherwise at the first unbound graph. -/
theorem check_eq_error_iff :
    t.check = .error f ↔ (t.isEmpty = true ∧ f = .notLoaded) ∨
      t.isEmpty = false ∧ ∃ a name, t.IsFirstUnbound a name ∧ f = .graphWithoutExperiment name := by
  have hfound : Component.firstUnboundGraph? t.components =
      (t.walk.find? fun part => part.2.isUnbound).map fun part => part.2.name := by
    rw [Component.firstUnboundGraph?_eq_find? fun c _ => c.unboundGraph?_eq_find?, ← map_snd_walk,
      List.find?_map, Option.map_map]
    rfl
  simp only [isFirstUnbound_iff]
  rw [check, Component.checkItems, hfound]
  cases t.isEmpty with
  | true => simp [eq_comm]
  | false =>
      cases t.walk.find? fun part => part.2.isUnbound with
      | none => simp
      | some part =>
          obtain ⟨a, c⟩ := part
          simp [eq_comm]

/-- What lasts in trees tells where the unbound graphs are. -/
theorem IsUnboundAt.of_withoutChanges_eq (h : t.IsUnboundAt a name)
    (same : t.withoutChanges = u.withoutChanges) : u.IsUnboundAt a name := by
  obtain ⟨c, hc, hunbound, hname⟩ := h
  have hat := at?_map_eq_of_withoutChanges_eq same a
  rw [hc] at hat
  obtain ⟨d, hd, hcd⟩ := Option.map_eq_some_iff.1 hat.symm
  refine ⟨d, hd, ?_, ?_⟩
  · rw [← d.isUnbound_erased, hcd, c.isUnbound_erased, hunbound]
  · rw [Component.name_eq_of_withoutChanges_eq hcd, hname]

theorem IsFirstUnbound.of_withoutChanges_eq (h : t.IsFirstUnbound a name)
    (same : t.withoutChanges = u.withoutChanges) : u.IsFirstUnbound a name := by
  have hpre : t.preorder = u.preorder := preorder_eq_of_shape_eq (shape_eq_of_map_eq same)
  refine ⟨h.unbound.of_withoutChanges_eq same, fun b other hb hother => ?_⟩
  rw [Precedes, ← hpre] at hb
  exact h.first b other hb (hother.of_withoutChanges_eq same.symm)

theorem check_eq_of_withoutChanges_eq (same : t.withoutChanges = u.withoutChanges) :
    t.check = u.check := by
  have hempty := isEmpty_eq_of_shape_eq (shape_eq_of_map_eq same)
  have key : ∀ f, t.check = .error f ↔ u.check = .error f := by
    intro f
    rw [check_eq_error_iff, check_eq_error_iff, hempty]
    refine or_congr Iff.rfl (and_congr_right fun _ => ?_)
    exact ⟨fun ⟨a, name, h, hf⟩ => ⟨a, name, h.of_withoutChanges_eq same, hf⟩,
      fun ⟨a, name, h, hf⟩ => ⟨a, name, h.of_withoutChanges_eq same.symm, hf⟩⟩
  cases ht : t.check with
  | error f => exact ((key f).1 ht).symm
  | ok _ =>
      cases hu : u.check with
      | error f => rw [(key f).2 hu] at ht; cases ht
      | ok _ => rfl

end Tree

namespace Script

/-- No turn touches what lasts. -/
theorem withoutChanges_turn (s : Script) (t : Turn) :
    (s.turn t).script.tree.withoutChanges = s.tree.withoutChanges := by
  have remembered : ∀ {α : Type} (r : Except Fault α), (s.remembering r).tree = s.tree := by
    intro α r
    cases r <;> rfl
  cases t with
  | subscribe => rfl
  | unsubscribe n =>
      rw [turn, unsubscribe]
      split <;> rfl
  | check => exact congrArg Tree.withoutChanges (remembered _)
  | save archive => exact congrArg Tree.withoutChanges (remembered _)
  | start => exact (moves_perform s .start).withoutChanges_eq
  | interact a i => exact (moves_perform s (.interact a i)).withoutChanges_eq
  | override a state => exact (moves_perform s (.interact a (.override state))).withoutChanges_eq
  | load archive => exact (moves_perform s (.load archive)).withoutChanges_eq

theorem withoutChanges_afterTurns (s : Script) (turns : List Turn) :
    (s.afterTurns turns).tree.withoutChanges = s.tree.withoutChanges := by
  induction turns generalizing s with
  | nil => rfl
  | cons t rest ih => rw [afterTurns_cons, ih, withoutChanges_turn]

/-- The check fails if a graph anywhere in a script is bound to no experiment, and names the first of these
in the order of pages and items. It does so alike, and about the same graph, after whatever is done with the
script. -/
theorem check_finds_first (s : Script) (turns : List Turn) :
    (s.tree.isEmpty = false →
      ((∃ f, s.tree.check = .error f) ↔ ∃ a name, s.tree.IsUnboundAt a name) ∧
      ∀ f, s.tree.check = .error f ↔
        ∃ a name, s.tree.IsFirstUnbound a name ∧ f = .graphWithoutExperiment name) ∧
    (s.afterTurns turns).check.2 = s.check.2 ∧
    ∀ a name, (s.afterTurns turns).tree.IsFirstUnbound a name ↔ s.tree.IsFirstUnbound a name := by
  have hlasts := withoutChanges_afterTurns s turns
  refine ⟨fun ne => ?_, Tree.check_eq_of_withoutChanges_eq hlasts, fun a name => ?_⟩
  · have herror : ∀ f, s.tree.check = .error f ↔
        ∃ a name, s.tree.IsFirstUnbound a name ∧ f = .graphWithoutExperiment name := by
      intro f
      rw [Tree.check_eq_error_iff, ne]
      simp
    refine ⟨⟨?_, ?_⟩, herror⟩
    · rintro ⟨f, hf⟩
      obtain ⟨a, name, h, -⟩ := (herror f).1 hf
      exact ⟨a, name, h.unbound⟩
    · rintro ⟨a, name, h⟩
      obtain ⟨b, first, hfirst⟩ := Tree.exists_isFirstUnbound h
      exact ⟨_, (herror _).2 ⟨b, first, hfirst, rfl⟩⟩
  · exact ⟨fun h => h.of_withoutChanges_eq hlasts, fun h => h.of_withoutChanges_eq hlasts.symm⟩

/-- A page that leads to a graph aside and, on the ordinary branch, to a sheet. Only the first graph of the
sheet is bound to an experiment. The graph aside is put in before the sheet. -/
def plotted : Except Fault Tree := do
  let (t, _) ← (Tree.new (.ofText "start" "")).addBranch 0 7 (.ofGraph "aside" (.position none))
  let (t, _) ← t.addNext 0 (.ofItems "results" .vertical
    [.ofGraph "path" (.position "fall"),
      .ofItems "speed" .horizontal [.ofGraph "down" (.verticalVelocity none)],
      .ofGraph "across" (.horizontalVelocity none)])
  .ok t

/-- The sheet comes first, and in it what the inner sheet holds. -/
theorem check_finds_first_plotted :
    ∃ s : Script, plotted = .ok s.tree ∧ s.tree.IsFirstUnbound ⟨2, [1, 0]⟩ "down" ∧
      (s.afterTurns [.start, .override ⟨2, [1, 0]⟩ .ongoing, .save .empty]).check.2 =
        .error (.graphWithoutExperiment "down") := by
  refine ⟨.new "Free fall" _, rfl, Tree.isFirstUnbound_iff.2 ⟨_, rfl, rfl⟩, ?_⟩
  obtain ⟨hfound, hlater, -⟩ := check_finds_first (.new "Free fall" _)
    [.start, .override ⟨2, [1, 0]⟩ .ongoing, .save .empty]
  rw [hlater]
  exact ((hfound rfl).2 _).2 ⟨_, _, Tree.isFirstUnbound_iff.2 ⟨_, rfl, rfl⟩, rfl⟩

end Script

end GuidedLab
