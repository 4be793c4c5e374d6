import GuidedLab.Source.Draft
import GuidedLab.Tree.Basic

/-!
# From drafts to trees

The tree of a draft has a page for each page of the draft. The next page of a page is on the ordinary
branch, and the first page of an outcome is on the outcome's branch. Pages are numbered as they are
met: a page, then the pages of its outcomes as written, then the pages after it. Branches ascend in
the tree whatever the order of the outcomes.

A draft is refused for an axis or an experiment that is not known, for two items of a sheet or two
pages with one name, and for two outcomes of a page on one branch. A page is looked at before the
branch it is to stand on; the names of pages are compared at the end.
-/

namespace GuidedLab.Source

/-- Why a draft is refused. -/
inductive Misfit where
  | unknownAxis (graph axis : String)
  | unknownExperiment (graph experiment : String)
  | repeatedItem (sheet item : String)
  | repeatedPage (name : String)
  | fault (f : Fault)
deriving DecidableEq, Repr

/-- The misfit in words. -/
def Misfit.message : Misfit → String
  | .unknownAxis graph axis => s!"graph \"{graph}\": {Axis.unknown axis}"
  | .unknownExperiment graph experiment =>
    s!"graph \"{graph}\" references unknown experiment \"{experiment}\""
  | .repeatedItem sheet item => s!"sheet \"{sheet}\" has more than one item named \"{item}\""
  | .repeatedPage name => s!"more than one component named \"{name}\""
  | .fault f => f.message

/-- The first name that is among the ones seen or came earlier in the list. -/
def repeated? (seen : List String) : List String → Option String
  | [] => none
  | s :: rest => if seen.contains s then some s else repeated? (s :: seen) rest

/-- The axis of a name. -/
def axis? (graph name : String) : Except Misfit Axis :=
  match Axis.ofName? name with
  | some axis => .ok axis
  | none => .error (.unknownAxis graph name)

/-- The graph of a draft, given the names of all experiments. -/
def GraphDraft.build (known : List String) (name : String) (g : GraphDraft) :
    Except Misfit Graph := do
  let xAxis ← axis? name g.xAxis
  let yAxis ← axis? name g.yAxis
  match g.experiment.filter fun e => !known.contains e with
  | some e => .error (.unknownExperiment name e)
  | none => .ok ⟨g.title.getD (Graph.defaultTitle xAxis yAxis), xAxis, yAxis, g.experiment⟩

/-- The component of an element's draft. -/
def ElementDraft.build (known : List String) (name : String) : ElementDraft → Except Misfit Component
  | .text style content => .ok (.ofElement name (.text style content))
  | .question content => .ok (.ofQuestion name content)
  | .checkbox content => .ok (.ofCheckbox name content)
  | .textQuestion content optional => .ok (.ofTextQuestion name content optional)
  | .experiment sensor description => .ok (.ofExperiment name sensor description)
  | .graph g => (g.build known name).map (.ofGraph name)
  | .export => .ok (.ofExport name)

mutual

/-- The component of a draft. -/
def ComponentDraft.build (known : List String) : ComponentDraft → Except Misfit Component
  | .leaf name element => element.build known name
  | .sheet name orientation items =>
    match repeated? [] (items.map ComponentDraft.name) with
    | some item => .error (.repeatedItem name item)
    | none => (buildItems known items).map (.ofItems name orientation)

/-- The items of drafts, in order. -/
def buildItems (known : List String) : List ComponentDraft → Except Misfit (List Component)
  | [] => .ok []
  | c :: rest => do
    let d ← c.build known
    let ds ← buildItems known rest
    .ok (d :: ds)

end

/-- A branch of the page of a name has to be free. -/
def vacant (name : String) (branch : UInt32) (taken : Branches Component) : Except Misfit Unit :=
  match taken.link? branch with
  | none => .ok ()
  | some existing => .error (.fault (.branchTaken name existing branch))

mutual

/-- The pages of a draft from a number on, the first one on a branch that has to be vacant. -/
def buildPages (known : List String) (branch : UInt32) (vacancy : Except Misfit Unit) (n : Nat) :
    Pages → Except Misfit (Branches Component)
  | .nil => .ok .nil
  | .cons component outcomes rest => do
    let c ← component.build known
    let _ ← vacancy
    let after ← buildOutcomes known c.name (n + 1) .nil outcomes
    let next ← buildPages known 0 (vacant c.name 0 after) (n + 1 + outcomes.size) rest
    .ok (.cons branch n c (next.union after) .nil)

/-- The pages of the outcomes of a named page from a number on, beside those built already. -/
def buildOutcomes (known : List String) (name : String) (n : Nat) (built : Branches Component) :
    Outcomes → Except Misfit (Branches Component)
  | .nil => .ok built
  | .cons branch pages rest => do
    let first ← buildPages known branch (vacant name branch built) n pages
    buildOutcomes known name (n + pages.size) (first.union built) rest

end

/-- Branches of a place that has no more than one, under a number. -/
def AtMostOne (branch : UInt32) (n : Nat) (t : Branches Component) : Prop :=
  t = .nil ∨ ∃ c after, t = .cons branch n c after .nil

theorem vacant_eq_ok {name : String} {branch : UInt32} {taken : Branches Component}
    (h : vacant name branch taken = .ok ()) : ∀ l ∈ taken.links, l.1 ≠ branch := by
  rw [vacant] at h
  split at h
  · next hl =>
    rw [Branches.link?, Option.map_eq_none_iff, List.find?_eq_none] at hl
    intro l hm e
    exact hl l hm (by simp [e])
  · cases h

/-- A page sequence of its own numbers put among built branches keeps what is sound in them. -/
theorem union_sound {branch : UInt32} {n k : Nat} {first built : Branches Component}
    (one : AtMostOne branch n first) (vacancy : first ≠ .nil → ∀ l ∈ built.links, l.1 ≠ branch)
    (fa : first.Ascending) (fr : first.Rising n) (ba : built.Ascending) (br : built.Rising k)
    (hk : k ≤ n) :
    (first.union built).Ascending ∧ (first.union built).Rising k ∧
      (first.union built).nodes.Perm (first.nodes ++ built.nodes) := by
  rcases one with rfl | ⟨c, after, rfl⟩
  · exact ⟨ba, br, .refl _⟩
  · refine ⟨Branches.ascending_place fa.2.1 ba (vacancy nofun),
      Branches.rising_place hk fr.2.1 br, ?_⟩
    simpa [Branches.union, Branches.nodes_cons] using
      Branches.nodes_place_perm branch n c after built

mutual

/-- Built pages have the numbers from the first on, ascend and rise. -/
theorem buildPages_sound {known : List String} {branch : UInt32} {vacancy : Except Misfit Unit} :
    ∀ {pages : Pages} {n : Nat} {t : Branches Component},
      buildPages known branch vacancy n pages = .ok t →
      AtMostOne branch n t ∧ (t ≠ .nil → vacancy = .ok ()) ∧ t.Ascending ∧ t.Rising n ∧
        t.nodes.Perm (List.range' n pages.size)
  | .nil, n, t, h => by
    cases h
    exact ⟨Or.inl rfl, fun h => absurd rfl h, trivial, trivial, .refl _⟩
  | .cons component outcomes rest, n, t, h => by
    rw [buildPages] at h
    cases hc : component.build known with
    | error m => rw [hc] at h; cases h
    | ok c =>
    cases hv : vacancy with
    | error m => rw [hc, hv] at h; cases h
    | ok _ =>
    cases ho : buildOutcomes known c.name (n + 1) .nil outcomes with
    | error m => rw [hc, hv] at h; simp [ho, bind, Except.bind] at h
    | ok after =>
    cases hr : buildPages known 0 (vacant c.name 0 after) (n + 1 + outcomes.size) rest with
    | error m => rw [hc, hv] at h; simp [ho, hr, bind, Except.bind] at h
    | ok next =>
    rw [hc, hv] at h
    simp [ho, hr, bind, Except.bind] at h
    subst h
    obtain ⟨aa, ar, ap⟩ := buildOutcomes_sound (k := n + 1) ho (Nat.le_refl _) trivial trivial
    obtain ⟨one, hvac, na, nr, np⟩ := buildPages_sound hr
    obtain ⟨ua, ur, up⟩ := union_sound (k := n + 1) one (fun hne => vacant_eq_ok (hvac hne))
      na nr aa ar (by omega)
    refine ⟨Or.inr ⟨c, _, rfl⟩, fun _ => rfl, ⟨nofun, ua, trivial⟩, ⟨Nat.le_refl n, ur, trivial⟩, ?_⟩
    rw [Branches.nodes_cons, Branches.nodes_nil, List.append_nil, Pages.size]
    have hp : (next.nodes ++ after.nodes).Perm
        (List.range' (n + 1) outcomes.size ++ List.range' (n + 1 + outcomes.size) rest.size) :=
      List.perm_append_comm.trans (List.Perm.append (by simpa using ap) np)
    rw [List.range'_append_1] at hp
    have hs : 1 + outcomes.size + rest.size = (outcomes.size + rest.size) + 1 := by omega
    rw [hs, List.range'_succ]
    exact (up.trans hp).cons n

/-- Built outcomes add the numbers from the first on to what was built. -/
theorem buildOutcomes_sound {known : List String} {name : String} {k : Nat} :
    ∀ {outcomes : Outcomes} {n : Nat} {built t : Branches Component},
      buildOutcomes known name n built outcomes = .ok t → k ≤ n → built.Ascending →
      built.Rising k →
      t.Ascending ∧ t.Rising k ∧ t.nodes.Perm (built.nodes ++ List.range' n outcomes.size)
  | .nil, n, built, t, h, _, ba, br => by
    cases h
    exact ⟨ba, br, by simp [Outcomes.size]⟩
  | .cons branch pages rest, n, built, t, h, hk, ba, br => by
    rw [buildOutcomes] at h
    cases hp : buildPages known branch (vacant name branch built) n pages with
    | error m => rw [hp] at h; cases h
    | ok first =>
    rw [hp] at h
    obtain ⟨one, hvac, fa, fr, fp⟩ := buildPages_sound hp
    obtain ⟨ua, ur, up⟩ := union_sound (k := k) one (fun hne => vacant_eq_ok (hvac hne))
      fa fr ba br hk
    obtain ⟨ta, tr, tp⟩ := buildOutcomes_sound (k := k) h (by omega) ua ur
    refine ⟨ta, tr, tp.trans ?_⟩
    rw [Outcomes.size, ← List.range'_append_1, ← List.append_assoc]
    exact ((up.trans List.perm_append_comm).trans (fp.append_left built.nodes)).append_right _

end

/-- The tree of a draft, before the names of its pages are compared. -/
def Pages.tree? (pages : Pages) : Except Misfit Tree :=
  match h : buildPages pages.experiments 0 (.ok ()) 0 pages with
  | .error m => .error m
  | .ok t =>
    have hs := buildPages_sound h
    .ok ⟨t, ⟨hs.2.2.1, hs.2.2.2.1, by
        have hp := hs.2.2.2.2
        have hl := hp.length_eq
        rw [Branches.length_nodes, List.length_range'] at hl
        rw [hl, List.range_eq_range']
        exact hp⟩,
      hs.1.imp (fun e => by rw [e]; rfl) fun ⟨c, after, e⟩ => by rw [e]; rfl⟩

/-- The tree of a draft. -/
def Draft.tree? (draft : Draft) : Except Misfit Tree := do
  let tree ← draft.pages.tree?
  match repeated? [] (tree.components.map Component.name) with
  | some name => .error (.repeatedPage name)
  | none => .ok tree

end GuidedLab.Source
