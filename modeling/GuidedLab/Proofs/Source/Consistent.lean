import GuidedLab.Proofs.Lists
import GuidedLab.Proofs.Source.Layout
import GuidedLab.Proofs.Source.Spelled

/-!
# Which drafts make a script

A draft is *consistent* when every graph has axes that are known and an experiment that is written
somewhere, the items of every sheet have different names, the outcomes of every page are on different
branches, and all pages have different names (`Pages.IsConsistent`). A draft in form makes a script
exactly when it is consistent, and the script is then laid out as it is written (`script_as_written`).
What is written is what the value of the text spells (`Spells`), which is one draft.

The builder looks at one thing after the other and stops at the first misfit. Which one that is depends
on the order, whether there is one does not: what it asks of a component is asked of each part by itself,
and a branch is free exactly when no outcome before has taken it (`exists_buildOutcomes_iff`).
-/

namespace GuidedLab.Source

/-- The parts of the components on all pages, at every depth. -/
def Pages.parts (pages : Pages) : List ComponentDraft :=
  pages.components.flatMap ComponentDraft.parts

/-- The branches that outcomes are written for. -/
def Outcomes.branches : Outcomes → List UInt32
  | .nil => []
  | .cons branch _ rest => branch :: rest.branches

mutual

/-- The outcomes of each page. -/
def Pages.forks : Pages → List Outcomes
  | .nil => []
  | .cons _ outcomes rest => outcomes :: (outcomes.forks ++ rest.forks)

/-- The outcomes of each page of outcomes. -/
def Outcomes.forks : Outcomes → List Outcomes
  | .nil => []
  | .cons _ pages rest => pages.forks ++ rest.forks

end

/-- What is asked of pages beyond their form. -/
structure Pages.IsConsistent (pages : Pages) : Prop where
  /-- Every graph has known axes. -/
  axes : ∀ name g, .leaf name (.graph g) ∈ pages.parts →
    (∃ axis : Axis, axis.IsNamed g.xAxis) ∧ ∃ axis : Axis, axis.IsNamed g.yAxis
  /-- The experiment of a graph is written somewhere. -/
  experiments : ∀ name g e, .leaf name (.graph g) ∈ pages.parts → g.experiment = some e →
    ∃ sensor description, .leaf e (.experiment sensor description) ∈ pages.parts
  /-- No two items of a sheet have one name. -/
  items : ∀ name orientation items, .sheet name orientation items ∈ pages.parts →
    (items.map ComponentDraft.name).Nodup
  /-- No two outcomes of a page are on one branch. -/
  outcomes : ∀ fork ∈ pages.forks, fork.branches.Nodup
  /-- No two pages have one name. -/
  names : (pages.components.map ComponentDraft.name).Nodup

variable {known : List String} {name : String} {branch : UInt32} {vacancy : Except Misfit Unit}

mutual

/-- The names of experiments on pages are those of the parts that are experiments. -/
theorem mem_experiments_iff_components : ∀ {pages : Pages} {s : String},
    s ∈ pages.experiments ↔ ∃ d ∈ pages.components, s ∈ d.experiments
  | .nil, s => by simp [Pages.experiments, Pages.components]
  | .cons component outcomes rest, s => by
    rw [Pages.experiments, Pages.components, List.mem_append, List.mem_append,
      mem_outcomesExperiments_iff_components, mem_experiments_iff_components]
    simp only [List.mem_cons, List.mem_append, or_and_right, exists_or, exists_eq_left, or_assoc]

/-- The names of experiments on the pages of outcomes likewise. -/
theorem mem_outcomesExperiments_iff_components : ∀ {outcomes : Outcomes} {s : String},
    s ∈ outcomes.experiments ↔ ∃ d ∈ outcomes.components, s ∈ d.experiments
  | .nil, s => by simp [Outcomes.experiments, Outcomes.components]
  | .cons branch pages rest, s => by
    rw [Outcomes.experiments, Outcomes.components, List.mem_append,
      mem_experiments_iff_components, mem_outcomesExperiments_iff_components]
    simp only [List.mem_append, or_and_right, exists_or]

end

theorem mem_experiments_iff {pages : Pages} {s : String} :
    s ∈ pages.experiments ↔
      ∃ sensor description, .leaf s (.experiment sensor description) ∈ pages.parts := by
  rw [mem_experiments_iff_components]
  constructor
  · rintro ⟨d, hd, hs⟩
    obtain ⟨sensor, description, hp⟩ := ComponentDraft.mem_experiments_iff.1 hs
    exact ⟨sensor, description, List.mem_flatMap.2 ⟨d, hd, hp⟩⟩
  · rintro ⟨sensor, description, hp⟩
    obtain ⟨d, hd, hp⟩ := List.mem_flatMap.1 hp
    exact ⟨d, hd, ComponentDraft.mem_experiments_iff.2 ⟨sensor, description, hp⟩⟩

/-- Pages that are not built over a place that is taken are built piece by piece. -/
theorem buildPages_cons_eq_ok_iff {component : ComponentDraft} {outcomes : Outcomes} {rest : Pages}
    {n : Nat} {t : Branches Component} :
    buildPages known branch vacancy n (.cons component outcomes rest) = .ok t ↔
      ∃ c after next, component.build known = .ok c ∧ vacancy = .ok () ∧
        buildOutcomes known c.name (n + 1) .nil outcomes = .ok after ∧
        buildPages known 0 (vacant c.name 0 after) (n + 1 + outcomes.size) rest = .ok next ∧
        t = .cons branch n c (next.union after) .nil := by
  constructor
  · intro h
    have hvacancy := (buildPages_sound h).2.1
    obtain ⟨c, after, next, hc, ho, hr, rfl⟩ := exists_cons_of_buildPages h
    have hne : Branches.cons branch n c (next.union after) .nil ≠ .nil := by
      intro hnil
      cases hnil
    exact ⟨c, after, next, hc, hvacancy hne, ho, hr, rfl⟩
  · rintro ⟨c, after, next, hc, rfl, ho, hr, rfl⟩
    rw [buildPages, Success.bind_eq_ok_iff]
    refine ⟨c, hc, Success.bind_eq_ok_iff.2 ⟨(), rfl, ?_⟩⟩
    refine Success.bind_eq_ok_iff.2 ⟨after, ho, ?_⟩
    exact Success.bind_eq_ok_iff.2 ⟨next, hr, rfl⟩

/-- A branch is free beside pages put among branches when it was free and is not theirs. -/
theorem link?_union_eq_none_iff {pages : Pages} {n : Nat} {first built : Branches Component}
    (h : buildPages known branch (vacant name branch built) n pages = .ok first)
    (ne : pages ≠ .nil) {b : UInt32} :
    (first.union built).link? b = none ↔ built.link? b = none ∧ branch ≠ b := by
  have hfirst : pages.first? n = some n := by
    cases pages with
    | nil => exact absurd rfl ne
    | cons => rfl
  rw [link?_union_of_buildPages h, hfirst, Option.or_eq_none_iff]
  by_cases hb : branch = b
  · simp [hb]
  · simp [hb]

mutual

/-- Pages can be built when their components can, the place is free, and no two outcomes of a page are
on one branch. -/
theorem exists_buildPages_iff {branch : UInt32} {vacancy : Except Misfit Unit} :
    ∀ {pages : Pages} {n : Nat}, pages.InForm →
      ((∃ t, buildPages known branch vacancy n pages = .ok t) ↔
        (∀ d ∈ pages.components, ∃ c, d.build known = .ok c) ∧
          (pages ≠ .nil → vacancy = .ok ()) ∧ ∀ fork ∈ pages.forks, fork.branches.Nodup)
  | .nil, n, _ => by
    constructor
    · intro _
      exact ⟨nofun, fun h => absurd rfl h, nofun⟩
    · intro _
      exact ⟨.nil, rfl⟩
  | .cons component outcomes rest, n, form => by
    rw [Pages.components, Pages.forks, List.forall_mem_cons, List.forall_mem_append,
      List.forall_mem_cons, List.forall_mem_append]
    constructor
    · rintro ⟨t, h⟩
      obtain ⟨c, after, next, hc, hvacancy, ho, hr, -⟩ := buildPages_cons_eq_ok_iff.1 h
      obtain ⟨hafter, -, hbranches, hforks⟩ := (exists_buildOutcomes_iff form.1).1 ⟨after, ho⟩
      obtain ⟨hnext, -, hforks'⟩ := (exists_buildPages_iff form.2).1 ⟨next, hr⟩
      exact ⟨⟨⟨c, hc⟩, hafter, hnext⟩, fun _ => hvacancy, hbranches, hforks, hforks'⟩
    · rintro ⟨⟨⟨c, hc⟩, hafter, hnext⟩, hvacancy, hbranches, hforks, hforks'⟩
      obtain ⟨after, ho⟩ : ∃ after, buildOutcomes known c.name (n + 1) .nil outcomes = .ok after :=
        (exists_buildOutcomes_iff form.1).2 ⟨hafter, fun _ _ => rfl, hbranches, hforks⟩
      -- no outcome is on the ordinary branch, so that one is free for the next page
      have hfree : after.link? 0 = none := by
        rw [link?_of_buildOutcomes form.1 ho, first?_zero form.1]
        rfl
      obtain ⟨next, hr⟩ : ∃ next, buildPages known 0 (vacant c.name 0 after)
          (n + 1 + outcomes.size) rest = .ok next :=
        (exists_buildPages_iff form.2).2 ⟨hnext, fun _ => vacant_eq_ok_iff.2 hfree, hforks'⟩
      refine ⟨_, buildPages_cons_eq_ok_iff.2 ⟨c, after, next, hc, hvacancy ?_, ho, hr, rfl⟩⟩
      intro hnil
      cases hnil

/-- Outcomes can be built beside those built already when their pages can and their branches are free
and different. -/
theorem exists_buildOutcomes_iff {name : String} :
    ∀ {outcomes : Outcomes} {n : Nat} {built : Branches Component}, outcomes.InForm →
      ((∃ t, buildOutcomes known name n built outcomes = .ok t) ↔
        (∀ d ∈ outcomes.components, ∃ c, d.build known = .ok c) ∧
          (∀ b ∈ outcomes.branches, built.link? b = none) ∧ outcomes.branches.Nodup ∧
          ∀ fork ∈ outcomes.forks, fork.branches.Nodup)
  | .nil, n, built, _ => by
    constructor
    · intro _
      exact ⟨nofun, nofun, List.nodup_nil, nofun⟩
    · intro _
      exact ⟨built, rfl⟩
  | .cons branch pages rest, n, built, form => by
    obtain ⟨-, hne, hpages, hrest⟩ := form
    rw [Outcomes.components, Outcomes.forks, Outcomes.branches, List.forall_mem_append,
      List.forall_mem_append, List.forall_mem_cons, List.nodup_cons]
    constructor
    · rintro ⟨t, h⟩
      rw [buildOutcomes] at h
      obtain ⟨first, hp, h⟩ := Success.bind_eq_ok_iff.1 h
      obtain ⟨hfirst, hvacant, hforks⟩ := (exists_buildPages_iff hpages).1 ⟨first, hp⟩
      obtain ⟨hothers, hfree, hnodup, hforks'⟩ := (exists_buildOutcomes_iff hrest).1 ⟨t, h⟩
      have hsplit := fun b hb => (link?_union_eq_none_iff hp hne).1 (hfree b hb)
      refine ⟨⟨hfirst, hothers⟩, ⟨vacant_eq_ok_iff.1 (hvacant hne), ?_⟩, ⟨?_, hnodup⟩, hforks,
        hforks'⟩
      · exact fun b hb => (hsplit b hb).1
      · exact fun hb => (hsplit branch hb).2 rfl
    · rintro ⟨⟨hfirst, hothers⟩, ⟨hfree, hfree'⟩, ⟨hnotin, hnodup⟩, hforks, hforks'⟩
      obtain ⟨first, hp⟩ : ∃ first, buildPages known branch (vacant name branch built) n pages =
          .ok first :=
        (exists_buildPages_iff hpages).2 ⟨hfirst, fun _ => vacant_eq_ok_iff.2 hfree, hforks⟩
      have hunion : ∀ b ∈ rest.branches, (first.union built).link? b = none := by
        intro b hb
        refine (link?_union_eq_none_iff hp hne).2 ⟨hfree' b hb, ?_⟩
        rintro rfl
        exact hnotin hb
      obtain ⟨t, h⟩ : ∃ t, buildOutcomes known name (n + pages.size) (first.union built) rest =
          .ok t :=
        (exists_buildOutcomes_iff hrest).2 ⟨hothers, hunion, hnodup, hforks'⟩
      refine ⟨t, ?_⟩
      rw [buildOutcomes, Success.bind_eq_ok_iff]
      exact ⟨first, hp, h⟩

end

/-- All components of pages can be built when what is asked of their parts is so. -/
theorem forall_exists_build_iff {pages : Pages} :
    (∀ d ∈ pages.components, ∃ c, d.build pages.experiments = .ok c) ↔
      ∀ part ∈ pages.parts, part.Fits pages.experiments := by
  constructor
  · intro h part hpart
    obtain ⟨d, hd, hpart⟩ := List.mem_flatMap.1 hpart
    exact ComponentDraft.exists_build_iff.1 (h d hd) part hpart
  · intro h d hd
    apply ComponentDraft.exists_build_iff.2
    exact fun part hpart => h part (List.mem_flatMap.2 ⟨d, hd, hpart⟩)

theorem isConsistent_iff {pages : Pages} :
    pages.IsConsistent ↔
      (∀ part ∈ pages.parts, part.Fits pages.experiments) ∧
        (∀ fork ∈ pages.forks, fork.branches.Nodup) ∧
          (pages.components.map ComponentDraft.name).Nodup := by
  constructor
  · intro h
    refine ⟨?_, h.outcomes, h.names⟩
    intro part hpart
    cases part with
    | sheet name orientation items => exact h.items name orientation items hpart
    | leaf name element =>
        cases element with
        | graph g =>
            obtain ⟨hx, hy⟩ := h.axes name g hpart
            refine ⟨hx, hy, ?_⟩
            exact fun e he => mem_experiments_iff.2 (h.experiments name g e hpart he)
        | _ => exact trivial
  · rintro ⟨hparts, houtcomes, hnames⟩
    constructor
    · intro name g hpart
      obtain ⟨hx, hy, -⟩ := hparts _ hpart
      exact ⟨hx, hy⟩
    · intro name g e hpart he
      obtain ⟨-, -, hknown⟩ := hparts _ hpart
      exact mem_experiments_iff.1 (hknown e he)
    · exact fun name orientation items hpart => hparts _ hpart
    · exact houtcomes
    · exact hnames

theorem pages_of_tree? {pages : Pages} {tree : Tree} (h : pages.tree? = .ok tree) :
    buildPages pages.experiments 0 (.ok ()) 0 pages = .ok tree.pages := by
  rw [Pages.tree?] at h
  split at h
  · cases h
  · next ht =>
      cases h
      exact ht

/-- Pages make a tree when they can be built. -/
theorem exists_pagesTree?_iff {pages : Pages} :
    (∃ tree, pages.tree? = .ok tree) ↔
      ∃ t, buildPages pages.experiments 0 (.ok ()) 0 pages = .ok t := by
  constructor
  · rintro ⟨tree, h⟩
    exact ⟨tree.pages, pages_of_tree? h⟩
  · rintro ⟨t, h⟩
    rw [Pages.tree?]
    split
    · next m hm =>
        rw [hm] at h
        cases h
    · exact ⟨_, rfl⟩

/-- The tree of pages has as many pages, the first of which is the root, and they are laid out in it. -/
theorem laidOut_of_tree? {pages : Pages} {tree : Tree} (form : pages.InForm) (ne : pages ≠ .nil)
    (h : pages.tree? = .ok tree) :
    tree.size = pages.size ∧ tree.root? = some 0 ∧ pages.LaidOut tree 0 := by
  have hb := pages_of_tree? h
  have hsize := (buildPages_sound hb).2.2.2.2.length_eq
  rw [Branches.length_nodes, List.length_range'] at hsize
  refine ⟨hsize, ?_, laidOut_of_buildPages form hb (.refl _)⟩
  rw [Tree.root?_eq_some_iff, Tree.isEmpty_eq_false_iff]
  refine ⟨rfl, ?_⟩
  rw [Tree.size, hsize]
  cases pages with
  | nil => exact absurd rfl ne
  | cons component outcomes rest =>
      rw [Pages.size]
      omega

/-- The names on the pages of a tree are those of the draft that it is made of, in another order. -/
theorem names_perm_of_tree? {pages : Pages} {tree : Tree} (form : pages.InForm) (ne : pages ≠ .nil)
    (h : pages.tree? = .ok tree) :
    (tree.components.map Component.name).Perm (pages.components.map ComponentDraft.name) := by
  obtain ⟨hsize, -, hlaid⟩ := laidOut_of_tree? form ne h
  have hnames := names_of_laidOutPages hlaid
  rw [← List.range_eq_range', ← hsize] at hnames
  have hpreorder : (tree.components.map Component.name).map some =
      tree.preorder.map fun node => (tree.component? node).map Component.name := by
    have hfound := congrArg (List.map (Option.map Component.name)) tree.map_component?_preorder
    rw [List.map_map, List.map_map] at hfound
    rw [List.map_map]
    exact hfound.symm
  apply Lists.perm_of_map_some
  rw [hpreorder, List.map_map, show some ∘ ComponentDraft.name = fun d => some d.name from rfl,
    ← hnames]
  exact tree.sound.numbered.map _

/-- The tree of a draft is the tree of its pages, if they have different names. -/
theorem tree?_eq_ok_iff {draft : Draft} {tree : Tree} (form : draft.pages.InForm)
    (ne : draft.pages ≠ .nil) :
    draft.tree? = .ok tree ↔
      draft.pages.tree? = .ok tree ∧ (draft.pages.components.map ComponentDraft.name).Nodup := by
  have hnames : ∀ {t}, draft.pages.tree? = .ok t →
      (repeated? [] (t.components.map Component.name) = none ↔
        (draft.pages.components.map ComponentDraft.name).Nodup) := by
    intro t h
    rw [repeated?_eq_none_iff, (names_perm_of_tree? form ne h).nodup_iff]
    exact and_iff_left fun _ _ => List.not_mem_nil
  rw [Draft.tree?, Success.bind_eq_ok_iff]
  constructor
  · rintro ⟨t, ht, h⟩
    split at h
    · cases h
    · next hnone =>
        cases h
        exact ⟨ht, (hnames ht).1 hnone⟩
  · rintro ⟨ht, hnodup⟩
    refine ⟨tree, ht, ?_⟩
    rw [(hnames ht).2 hnodup]

/-- A draft in form makes a tree exactly when it is consistent. -/
theorem exists_tree?_iff {draft : Draft} (form : draft.pages.InForm) (ne : draft.pages ≠ .nil) :
    (∃ tree, draft.tree? = .ok tree) ↔ draft.pages.IsConsistent := by
  have hpages : (∃ tree, draft.pages.tree? = .ok tree) ↔
      (∀ part ∈ draft.pages.parts, part.Fits draft.pages.experiments) ∧
        ∀ fork ∈ draft.pages.forks, fork.branches.Nodup := by
    rw [exists_pagesTree?_iff, exists_buildPages_iff form, forall_exists_build_iff]
    apply and_congr_right
    intro _
    exact and_iff_right fun _ => rfl
  rw [isConsistent_iff, ← and_assoc, ← hpages, ← exists_and_right]
  exact exists_congr fun tree => tree?_eq_ok_iff form ne

/-- The script of a text that spells a draft is the script of the draft's tree. -/
theorem script_eq_ok_iff {text : String} {v : Json.Value} {draft : Draft} {s : Script}
    (value : valueOf text = .ok v) (spelled : draftOf v = .ok draft) :
    script text = .ok s ↔ ∃ tree, draft.tree? = .ok tree ∧ s = Script.new draft.title tree := by
  constructor
  · intro h
    obtain ⟨v', draft', tree, hvalue, hspelled, ht, rfl⟩ := exists_draft_of_script h
    rw [value] at hvalue
    cases hvalue
    rw [spelled] at hspelled
    cases hspelled
    exact ⟨tree, ht, rfl⟩
  · rintro ⟨tree, ht, rfl⟩
    rw [script, Success.bind_eq_ok_iff]
    refine ⟨v, value, Success.bind_eq_ok_iff.2 ⟨draft, spelled, ?_⟩⟩
    rw [scriptOf, ht]

/-- The draft of a text is the one that its value spells. The text is loaded exactly when this draft is
consistent, and what is loaded is what is written: there is a page for each page of the draft, the root is
the first one, and the components and the links are those of the draft. -/
theorem script_as_written {text : String} {v : Json.Value} {draft : Draft}
    (value : valueOf text = .ok v) (spelled : draftOf v = .ok draft) :
    (∀ other, Spells v other ↔ other = draft) ∧
    ((∃ s, script text = .ok s) ↔ draft.pages.IsConsistent) ∧
    ∀ s, script text = .ok s → s.title = draft.title ∧ s.tree.size = draft.pages.size ∧
      s.tree.root? = some 0 ∧ draft.pages.LaidOut s.tree 0 := by
  obtain ⟨ne, form⟩ := inForm_of_draftOf spelled
  refine ⟨fun _ => spells_iff_of_draftOf spelled, ?_, ?_⟩
  · rw [← exists_tree?_iff form ne]
    constructor
    · rintro ⟨s, h⟩
      obtain ⟨tree, ht, -⟩ := (script_eq_ok_iff value spelled).1 h
      exact ⟨tree, ht⟩
    · rintro ⟨tree, ht⟩
      exact ⟨_, (script_eq_ok_iff value spelled).2 ⟨tree, ht, rfl⟩⟩
  · intro s h
    obtain ⟨tree, ht, rfl⟩ := (script_eq_ok_iff value spelled).1 h
    obtain ⟨htree, -⟩ := (tree?_eq_ok_iff form ne).1 ht
    obtain ⟨hsize, hroot, hlaid⟩ := laidOut_of_tree? form ne htree
    exact ⟨rfl, hsize, hroot, hlaid⟩

/-- The text of a script with a checkbox and after it a sheet with a question, or a sheet without items
for an outcome that the checkbox may be given. -/
def branchedText : String :=
  "\x7b\"title\":\"T\",\"pages\":[" ++
    "\x7b\"component\":\x7b\"type\":\"checkbox_question\",\"name\":\"ready\",\"text\":\"?\"\x7d," ++
      "\"branches\":[\x7b\"outcome\":1,\"pages\":[\x7b\"component\":" ++
        "\x7b\"type\":\"sheet\",\"name\":\"aside\",\"items\":[]\x7d\x7d]\x7d]\x7d," ++
    "\x7b\"component\":\x7b\"type\":\"sheet\",\"name\":\"drop\",\"items\":[" ++
      "\x7b\"type\":\"text_question\",\"name\":\"time\",\"text\":\"?\"\x7d]\x7d\x7d]\x7d"

/-- The tree of `branchedText`. -/
def branchedTree : Tree :=
  let grown := ((Tree.new (.ofCheckbox "ready" "?")).addBranch 0 1
    (.ofItems "aside" .vertical [])).bind fun r =>
      r.1.addNext 0 (.ofItems "drop" .vertical [.ofTextQuestion "time" "?" false])
  (grown.toOption.map Prod.fst).getD .empty

theorem script_branchedText : script branchedText = .ok (.new "T" branchedTree) := by
  apply script_of_ofList
  · unfold branchedText
    repeat' apply append_eq_ofList
    all_goals exact rfl
  · decide +kernel

theorem script_as_written_branched :
    ∃ v draft, valueOf branchedText = .ok v ∧ draftOf v = .ok draft ∧ Spells v draft ∧
      draft.pages.IsConsistent ∧ draft.pages.size = 3 ∧ draft.pages.LaidOut branchedTree 0 := by
  obtain ⟨v, draft, -, hv, hd, -, -⟩ := exists_draft_of_script script_branchedText
  obtain ⟨hspells, hiff, hall⟩ := script_as_written hv hd
  obtain ⟨-, hsize, -, hlaid⟩ := hall _ script_branchedText
  exact ⟨v, draft, hv, hd, (hspells draft).2 rfl, hiff.1 ⟨_, script_branchedText⟩, hsize.symm, hlaid⟩

end GuidedLab.Source
