import GuidedLab.Proofs.Json.Bounds
import GuidedLab.Proofs.Source.Loaded
import GuidedLab.Proofs.Tree.Lasting

/-!
# How a loaded script was written

The text of a script bounds what is loaded from it. A name without a slash was asked for at every
depth, the components nest no deeper than the values of the text do, and every page has taken a
character (`written_of_script`). All of it lasts (`Tree.IsWritten.of_withoutChanges_eq`).
-/

namespace GuidedLab

namespace Component

/-- No part is more than so many components deep, the component itself counted. -/
def NestsWithin (n : Nat) (c : Component) : Prop :=
  ∀ p d, c.item? p = some d → p.length < n

/-- A component as the loader gives it: no name has a slash, and the parts nest to a depth. -/
structure IsWritten (n : Nat) (c : Component) : Prop where
  names : c.Every fun d => '/' ∉ d.name.toList
  nests : c.NestsWithin n

variable {n m : Nat} {name : String} {state : State}

theorem nestsWithin_leaf {element : Element} (h : 0 < n) :
    (Component.leaf name state element).NestsWithin n := by
  intro p d hd
  cases p with
  | nil => exact h
  | cons i p => cases hd

theorem nestsWithin_sheet {orientation : Orientation} {items : List Component} :
    (Component.sheet name state orientation items).NestsWithin (n + 1) ↔
      ∀ c ∈ items, c.NestsWithin n := by
  constructor
  · intro h c hc p d hd
    obtain ⟨i, hi⟩ := List.getElem?_of_mem hc
    apply Nat.lt_of_succ_lt_succ
    apply h (i :: p) d
    rw [item?_sheet_cons, hi]
    exact hd
  · intro h p d hd
    cases p with
    | nil => exact Nat.succ_pos n
    | cons i p =>
        obtain ⟨c, hc, hd⟩ := item?_cons_eq_some_iff.1 hd
        exact Nat.succ_lt_succ (h c (List.mem_of_getElem? hc) p d hd)

theorem NestsWithin.mono {c : Component} (h : c.NestsWithin n) (hnm : n ≤ m) : c.NestsWithin m :=
  fun p d hd => Nat.lt_of_lt_of_le (h p d hd) hnm

theorem IsWritten.mono {c : Component} (h : c.IsWritten n) (hnm : n ≤ m) : c.IsWritten m :=
  ⟨h.names, h.nests.mono hnm⟩

theorem isWritten_leaf {element : Element} (free : '/' ∉ name.toList) (h : 0 < n) :
    (Component.leaf name state element).IsWritten n :=
  ⟨every_leaf.2 free, nestsWithin_leaf h⟩

theorem isWritten_ofItems {orientation : Orientation} {items : List Component}
    (free : '/' ∉ name.toList) (h : ∀ c ∈ items, c.IsWritten n) :
    (ofItems name orientation items).IsWritten (n + 1) := by
  have hnumbered : ∀ c ∈ numbered 0 items, c.IsWritten n := by
    intro c hc
    rcases mem_numbered hc with hm | ⟨name, state, element, element', k, hm, hk, rfl⟩
    · exact h c hm
    · -- a numbered element has the name of the element, and no items either
      have hw := h _ hm
      exact isWritten_leaf hw.names.self (hw.nests [] _ (item?_nil _))
  exact ⟨every_sheet.2 ⟨free, fun c hc => (hnumbered c hc).names⟩,
    nestsWithin_sheet.2 fun c hc => (hnumbered c hc).nests⟩

/-- Whether a component is as the loader gives it depends on what lasts in it. -/
theorem IsWritten.of_withoutChanges_eq {c d : Component} (h : c.IsWritten n)
    (same : d.withoutChanges = c.withoutChanges) : d.IsWritten n := by
  constructor
  · apply h.names.of_withoutChanges_eq same
    intro e e' hsame free
    rwa [name_eq_of_withoutChanges_eq hsame]
  · intro p e he
    obtain ⟨e', he', -⟩ := exists_item?_of_withoutChanges_eq same he
    exact h.nests p e' he'

end Component

namespace Tree

variable {t u : Tree} {n : Nat}

/-- A tree as the loader gives it. -/
def IsWritten (n : Nat) (t : Tree) : Prop := ∀ c ∈ t.components, c.IsWritten n

theorem IsWritten.of_withoutChanges_eq (h : t.IsWritten n)
    (same : u.withoutChanges = t.withoutChanges) : u.IsWritten n := by
  intro d hd
  obtain ⟨c, hc, hcd⟩ := exists_mem_components_of_withoutChanges_eq same hd
  exact (h c hc).of_withoutChanges_eq hcd

theorem IsWritten.not_mem_name (h : t.IsWritten n) {a : Address} {c : Component}
    (found : t.at? a = some c) : '/' ∉ c.name.toList := by
  obtain ⟨page, hpage, hc⟩ := Option.bind_eq_some_iff.1 found
  exact (h page (mem_components_iff.2 ⟨_, hpage⟩)).names _ _ hc

end Tree

namespace Json.Value

variable {name : String} {v : Value} {members : List (String × Value)}

theorem depth_le_of_member? (h : member? name members = some v) :
    v.depth ≤ depthOfMembers members := by
  induction members with
  | nil => cases h
  | cons m rest ih =>
      obtain ⟨k, w⟩ := m
      rw [member?_cons] at h
      rw [depthOfMembers]
      split at h
      · cases h
        exact Nat.le_max_left _ _
      · exact Nat.le_trans (ih h) (Nat.le_max_right _ _)

theorem size_le_of_member? (h : member? name members = some v) :
    v.size ≤ sizeOfMembers members := by
  induction members with
  | nil => cases h
  | cons m rest ih =>
      obtain ⟨k, w⟩ := m
      rw [member?_cons] at h
      rw [sizeOfMembers]
      split at h
      · cases h
        exact Nat.le_add_right _ _
      · exact Nat.le_trans (ih h) (Nat.le_add_left _ _)

end Json.Value

namespace Source

open Json (Value)
open Component (IsWritten)

/-! ### Components -/

theorem ElementDraft.isWritten_of_build {known : List String} {name : String} {e : ElementDraft}
    {c : Component} {n : Nat} (h : e.build known name = .ok c) (free : '/' ∉ name.toList)
    (hn : 0 < n) : c.IsWritten n := by
  cases e with
  | graph g =>
      rw [build] at h
      obtain ⟨graph, -, rfl⟩ := Success.map_eq_ok_iff.1 h
      exact Component.isWritten_leaf free hn
  | _ =>
      cases h
      exact Component.isWritten_leaf free hn

theorem not_mem_of_isName {name : String} {members : Schema.Members}
    (form : Schema.requires "name" Schema.isName members = true)
    (h : text? "name" members = some name) : '/' ∉ name.toList := by
  rw [text?] at h
  split at h
  · next s hs =>
      cases h
      rw [Schema.requires, hs] at form
      rw [Option.any_some, Schema.isName, Bool.and_eq_true, Bool.not_eq_true'] at form
      simpa using form.2
  · cases h

mutual

/-- A component that is read from a value in form is written, no deeper than the value. -/
theorem isWritten_of_component? {known : List String} :
    ∀ {v : Value} {d : ComponentDraft} {c : Component}, Schema.isComponent v = true →
      component? v = some d → d.build known = .ok c → c.IsWritten v.depth
  | .null, _, _, _, h, _ => nomatch h
  | .bool _, _, _, _, h, _ => nomatch h
  | .number _, _, _, _, h, _ => nomatch h
  | .string _, _, _, _, h, _ => nomatch h
  | .array _, _, _, _, h, _ => nomatch h
  | .object members, d, c, form, h, hb => by
    rw [Schema.isComponent, Bool.and_eq_true] at form
    obtain ⟨hname, form⟩ := form
    rw [component?] at h
    obtain ⟨kind, hkind, h⟩ := Option.bind_eq_some_iff.1 h
    obtain ⟨name, hread, h⟩ := Option.bind_eq_some_iff.1 h
    have free := not_mem_of_isName hname hread
    rw [hkind, Option.any_some, Bool.and_eq_true] at form
    rw [Value.depth, Nat.add_comm]
    split at h
    · next hsheet =>
        obtain ⟨orientation, -, h⟩ := Option.bind_eq_some_iff.1 h
        obtain ⟨items, hitems, h⟩ := Option.bind_eq_some_iff.1 h
        cases h
        rw [ComponentDraft.build] at hb
        split at hb
        · cases hb
        · obtain ⟨cs, hcs, rfl⟩ := Success.map_eq_ok_iff.1 hb
          have hform : Schema.itemsAreComponents members = true := by simpa [hsheet] using form.2
          exact Component.isWritten_ofItems free (isWritten_of_items? hform hitems hcs)
    · obtain ⟨element, -, rfl⟩ := Option.map_eq_some_iff.1 h
      exact ElementDraft.isWritten_of_build hb free (Nat.succ_pos _)

/-- The items that members spell likewise. -/
theorem isWritten_of_items? {known : List String} :
    ∀ {members : List (String × Value)} {ds : List ComponentDraft} {cs : List Component},
      Schema.itemsAreComponents members = true → items? members = some ds →
        buildItems known ds = .ok cs → ∀ c ∈ cs, c.IsWritten (Value.depthOfMembers members)
  | [], _, _, _, h, _ => nomatch h
  | (k, v) :: rest, ds, cs, form, h, hb => by
    rw [Schema.itemsAreComponents, Bool.and_eq_true] at form
    rw [items?] at h
    rw [Value.depthOfMembers]
    intro c hc
    split at h
    · next hk =>
        have hform : Schema.isComponentArray v = true := by simpa [hk] using form.1
        exact (isWritten_of_componentArray? hform h hb c hc).mono (Nat.le_max_left _ _)
    · exact (isWritten_of_items? form.2 h hb c hc).mono (Nat.le_max_right _ _)

/-- The components that an array spells likewise. -/
theorem isWritten_of_componentArray? {known : List String} :
    ∀ {v : Value} {ds : List ComponentDraft} {cs : List Component},
      Schema.isComponentArray v = true → componentArray? v = some ds →
        buildItems known ds = .ok cs → ∀ c ∈ cs, c.IsWritten v.depth
  | .null, _, _, _, h, _ => nomatch h
  | .bool _, _, _, _, h, _ => nomatch h
  | .number _, _, _, _, h, _ => nomatch h
  | .string _, _, _, _, h, _ => nomatch h
  | .object _, _, _, _, h, _ => nomatch h
  | .array items, _, _, form, h, hb => by
    intro c hc
    rw [Value.depth]
    exact (isWritten_of_components? form h hb c hc).mono (Nat.le_add_left _ _)

/-- The components that values spell likewise. -/
theorem isWritten_of_components? {known : List String} :
    ∀ {vs : List Value} {ds : List ComponentDraft} {cs : List Component},
      Schema.areComponents vs = true → components? vs = some ds →
        buildItems known ds = .ok cs → ∀ c ∈ cs, c.IsWritten (Value.depthOfItems vs)
  | [], _, _, _, h, hb => by
    cases h
    cases hb
    exact nofun
  | v :: rest, ds, cs, form, h, hb => by
    rw [Schema.areComponents, Bool.and_eq_true] at form
    rw [components?] at h
    obtain ⟨d, hd, h⟩ := Option.bind_eq_some_iff.1 h
    obtain ⟨others, ho, h⟩ := Option.bind_eq_some_iff.1 h
    cases h
    rw [buildItems] at hb
    obtain ⟨c, hc, hb⟩ := Success.bind_eq_ok_iff.1 hb
    obtain ⟨built, hbuilt, hb⟩ := Success.bind_eq_ok_iff.1 hb
    cases hb
    rw [Value.depthOfItems]
    intro x hx
    rcases List.mem_cons.1 hx with rfl | hx
    · exact (isWritten_of_component? form.1 hd hc).mono (Nat.le_max_left _ _)
    · exact (isWritten_of_components? form.2 ho hbuilt x hx).mono (Nat.le_max_right _ _)

end

/-! ### Pages -/

/-- A draft of a component that is read from a value in form, no deeper than a limit. -/
def ReadFrom (depth : Nat) (d : ComponentDraft) : Prop :=
  ∃ v : Value, Schema.isComponent v = true ∧ component? v = some d ∧ v.depth ≤ depth

theorem ReadFrom.mono {n m : Nat} {d : ComponentDraft} (h : ReadFrom n d) (hnm : n ≤ m) :
    ReadFrom m d := by
  obtain ⟨v, form, hv, hd⟩ := h
  exact ⟨v, form, hv, Nat.le_trans hd hnm⟩

theorem ReadFrom.isWritten {n : Nat} {d : ComponentDraft} {known : List String} {c : Component}
    (h : ReadFrom n d) (hb : d.build known = .ok c) : c.IsWritten n := by
  obtain ⟨v, form, hv, hd⟩ := h
  exact (isWritten_of_component? form hv hb).mono hd

mutual

/-- Pages that are read from a value in form are no more than its values, and their components are read
from values in it. -/
theorem readFrom_of_pages? : ∀ {v : Value} {pages : Pages}, Schema.isPages v = true →
    pages? v = some pages →
      pages.size ≤ v.size ∧ ∀ d ∈ pages.components, ReadFrom v.depth d
  | .null, _, _, h => nomatch h
  | .bool _, _, _, h => nomatch h
  | .number _, _, _, h => nomatch h
  | .string _, _, _, h => nomatch h
  | .object _, _, _, h => nomatch h
  | .array vs, pages, form, h => by
    rw [Schema.isPages, Bool.and_eq_true] at form
    obtain ⟨hsize, hread⟩ := readFrom_of_pageList? form.2 h
    rw [Value.size, Value.depth]
    exact ⟨by omega, fun d hd => (hread d hd).mono (Nat.le_add_left _ _)⟩

/-- Pages that are read from values likewise. -/
theorem readFrom_of_pageList? : ∀ {vs : List Value} {pages : Pages}, Schema.arePages vs = true →
    pageList? vs = some pages →
      pages.size ≤ Value.sizeOfItems vs ∧
        ∀ d ∈ pages.components, ReadFrom (Value.depthOfItems vs) d
  | [], pages, _, h => by
    cases h
    exact ⟨Nat.zero_le _, nofun⟩
  | v :: rest, pages, form, h => by
    rw [Schema.arePages, Bool.and_eq_true] at form
    rw [pageList?] at h
    obtain ⟨⟨component, outcomes⟩, hpage, h⟩ := Option.bind_eq_some_iff.1 h
    obtain ⟨others, ho, h⟩ := Option.bind_eq_some_iff.1 h
    cases h
    obtain ⟨hsize, hcomponent, hread⟩ := readFrom_of_page? form.1 hpage
    obtain ⟨hsizes, hreads⟩ := readFrom_of_pageList? form.2 ho
    rw [Pages.size, Pages.components, Value.sizeOfItems, Value.depthOfItems]
    refine ⟨by dsimp only; omega, ?_⟩
    intro d hd
    rcases List.mem_cons.1 hd with rfl | hd
    · exact hcomponent.mono (Nat.le_max_left _ _)
    · rcases List.mem_append.1 hd with hd | hd
      · exact (hread d hd).mono (Nat.le_max_left _ _)
      · exact (hreads d hd).mono (Nat.le_max_right _ _)

/-- A page that is read from a value likewise. -/
theorem readFrom_of_page? : ∀ {v : Value} {component : ComponentDraft} {outcomes : Outcomes},
    Schema.isPage v = true → page? v = some (component, outcomes) →
      1 + outcomes.size ≤ v.size ∧ ReadFrom v.depth component ∧
        ∀ d ∈ outcomes.components, ReadFrom v.depth d
  | .null, _, _, _, h => nomatch h
  | .bool _, _, _, _, h => nomatch h
  | .number _, _, _, _, h => nomatch h
  | .string _, _, _, _, h => nomatch h
  | .array _, _, _, _, h => nomatch h
  | .object members, component, outcomes, form, h => by
    rw [Schema.isPage, Bool.and_eq_true, Bool.and_eq_true] at form
    obtain ⟨⟨-, hform⟩, hbranches⟩ := form
    rw [page?] at h
    obtain ⟨c, hc, h⟩ := Option.bind_eq_some_iff.1 h
    obtain ⟨w, hw, hc⟩ := Option.bind_eq_some_iff.1 hc
    obtain ⟨os, ho, h⟩ := Option.bind_eq_some_iff.1 h
    cases h
    rw [Schema.requires, hw, Option.any_some] at hform
    obtain ⟨hsize, hread⟩ := readFrom_of_outcomes? hbranches ho
    have hdepth := Value.depth_le_of_member? hw
    rw [Value.size, Value.depth]
    exact ⟨by omega, ⟨w, hform, hc, by omega⟩,
      fun d hd => (hread d hd).mono (Nat.le_add_left _ _)⟩

/-- The outcomes that the members of a page spell likewise. -/
theorem readFrom_of_outcomes? : ∀ {members : List (String × Value)} {outcomes : Outcomes},
    Schema.branchesAreBranches members = true → outcomes? members = some outcomes →
      outcomes.size ≤ Value.sizeOfMembers members ∧
        ∀ d ∈ outcomes.components, ReadFrom (Value.depthOfMembers members) d
  | [], outcomes, _, h => by
    cases h
    exact ⟨Nat.zero_le _, nofun⟩
  | (k, v) :: rest, outcomes, form, h => by
    rw [Schema.branchesAreBranches, Bool.and_eq_true] at form
    rw [outcomes?] at h
    rw [Value.sizeOfMembers, Value.depthOfMembers]
    split at h
    · next hk =>
        have hform : Schema.isBranchArray v = true := by simpa [hk] using form.1
        obtain ⟨hsize, hread⟩ := readFrom_of_outcomeArray? hform h
        exact ⟨by omega, fun d hd => (hread d hd).mono (Nat.le_max_left _ _)⟩
    · obtain ⟨hsize, hread⟩ := readFrom_of_outcomes? form.2 h
      exact ⟨by omega, fun d hd => (hread d hd).mono (Nat.le_max_right _ _)⟩

/-- The outcomes that an array spells likewise. -/
theorem readFrom_of_outcomeArray? : ∀ {v : Value} {outcomes : Outcomes},
    Schema.isBranchArray v = true → outcomeArray? v = some outcomes →
      outcomes.size ≤ v.size ∧ ∀ d ∈ outcomes.components, ReadFrom v.depth d
  | .null, _, _, h => nomatch h
  | .bool _, _, _, h => nomatch h
  | .number _, _, _, h => nomatch h
  | .string _, _, _, h => nomatch h
  | .object _, _, _, h => nomatch h
  | .array vs, outcomes, form, h => by
    obtain ⟨hsize, hread⟩ := readFrom_of_outcomeList? form h
    rw [Value.size, Value.depth]
    exact ⟨by omega, fun d hd => (hread d hd).mono (Nat.le_add_left _ _)⟩

/-- The outcomes that values spell likewise. -/
theorem readFrom_of_outcomeList? : ∀ {vs : List Value} {outcomes : Outcomes},
    Schema.areBranches vs = true → outcomeList? vs = some outcomes →
      outcomes.size ≤ Value.sizeOfItems vs ∧
        ∀ d ∈ outcomes.components, ReadFrom (Value.depthOfItems vs) d
  | [], outcomes, _, h => by
    cases h
    exact ⟨Nat.zero_le _, nofun⟩
  | v :: rest, outcomes, form, h => by
    rw [Schema.areBranches, Bool.and_eq_true] at form
    rw [outcomeList?] at h
    obtain ⟨⟨branch, pages⟩, houtcome, h⟩ := Option.bind_eq_some_iff.1 h
    obtain ⟨others, ho, h⟩ := Option.bind_eq_some_iff.1 h
    cases h
    obtain ⟨hsize, hread⟩ := readFrom_of_outcome? form.1 houtcome
    obtain ⟨hsizes, hreads⟩ := readFrom_of_outcomeList? form.2 ho
    rw [Outcomes.size, Outcomes.components, Value.sizeOfItems, Value.depthOfItems]
    refine ⟨by dsimp only; omega, ?_⟩
    intro d hd
    rcases List.mem_append.1 hd with hd | hd
    · exact (hread d hd).mono (Nat.le_max_left _ _)
    · exact (hreads d hd).mono (Nat.le_max_right _ _)

/-- An outcome that is read from a value likewise. -/
theorem readFrom_of_outcome? : ∀ {v : Value} {branch : UInt32} {pages : Pages},
    Schema.isBranch v = true → outcome? v = some (branch, pages) →
      pages.size ≤ v.size ∧ ∀ d ∈ pages.components, ReadFrom v.depth d
  | .null, _, _, _, h => nomatch h
  | .bool _, _, _, _, h => nomatch h
  | .number _, _, _, _, h => nomatch h
  | .string _, _, _, _, h => nomatch h
  | .array _, _, _, _, h => nomatch h
  | .object members, branch, pages, form, h => by
    rw [Schema.isBranch, Bool.and_eq_true] at form
    rw [outcome?] at h
    obtain ⟨b, -, h⟩ := Option.bind_eq_some_iff.1 h
    obtain ⟨ps, hp, h⟩ := Option.bind_eq_some_iff.1 h
    cases h
    obtain ⟨hsize, hread⟩ := readFrom_of_pagesUnder? form.2 hp
    rw [Value.size, Value.depth]
    exact ⟨by omega, fun d hd => (hread d hd).mono (Nat.le_add_left _ _)⟩

/-- The pages that the members of an outcome spell likewise. -/
theorem readFrom_of_pagesUnder? : ∀ {members : List (String × Value)} {pages : Pages},
    Schema.pagesArePages members = true → pagesUnder? members = some pages →
      pages.size ≤ Value.sizeOfMembers members ∧
        ∀ d ∈ pages.components, ReadFrom (Value.depthOfMembers members) d
  | [], _, _, h => nomatch h
  | (k, v) :: rest, pages, form, h => by
    rw [Schema.pagesArePages, Bool.and_eq_true] at form
    rw [pagesUnder?] at h
    rw [Value.sizeOfMembers, Value.depthOfMembers]
    split at h
    · next hk =>
        have hform : Schema.isPages v = true := by simpa [hk] using form.1
        obtain ⟨hsize, hread⟩ := readFrom_of_pages? hform h
        exact ⟨by omega, fun d hd => (hread d hd).mono (Nat.le_max_left _ _)⟩
    · obtain ⟨hsize, hread⟩ := readFrom_of_pagesUnder? form.2 h
      exact ⟨by omega, fun d hd => (hread d hd).mono (Nat.le_max_right _ _)⟩

end

/-! ### Scripts -/

/-- The object around everything is one container more. -/
theorem readFrom_of_draftOf {v : Value} {draft : Draft} (h : draftOf v = .ok draft) :
    draft.pages.size ≤ v.size ∧ ∀ d ∈ draft.pages.components, ReadFrom (v.depth - 1) d := by
  rw [draftOf] at h
  split at h
  · next form =>
      cases v with
      | object members =>
          rw [Schema.isScript, Bool.and_eq_true, Schema.requires, Schema.requires] at form
          split at h
          · next hdraft =>
              cases h
              rw [Draft.ofJson?] at hdraft
              obtain ⟨title, -, hdraft⟩ := Option.bind_eq_some_iff.1 hdraft
              obtain ⟨pages, hpages, hdraft⟩ := Option.bind_eq_some_iff.1 hdraft
              obtain ⟨w, hw, hpages⟩ := Option.bind_eq_some_iff.1 hpages
              cases hdraft
              rw [hw, Option.any_some] at form
              obtain ⟨hsize, hread⟩ := readFrom_of_pages? form.2 hpages
              have hs := Value.size_le_of_member? hw
              have hd := Value.depth_le_of_member? hw
              rw [Value.size, Value.depth]
              exact ⟨by dsimp only; omega, fun d hm => (hread d hm).mono (by omega)⟩
          · cases h
      | _ => cases form
  · cases h

/-- The pages of a loaded script are no more than the characters of its text, and its components are
written, no deeper than containers may nest in an object of a text. -/
theorem written_of_script {text : String} {s : Script} (h : script text = .ok s) :
    s.tree.size ≤ text.toList.length ∧ s.tree.IsWritten (Json.depthLimit - 1) := by
  obtain ⟨v, draft, tree, hv, hd, ht, rfl⟩ := exists_draft_of_script h
  have hbuilt := buildPages_of_tree? ht
  obtain ⟨hsize, hread⟩ := readFrom_of_draftOf hd
  rw [valueOf] at hv
  split at hv
  · next w hw =>
      cases hv
      obtain ⟨hdepth, hlength⟩ := Json.bounds_of_ofText? hw
      obtain ⟨hsettledDepth, hsettledSize⟩ := w.settled_le
      constructor
      · have hnodes := (buildPages_sound hbuilt).2.2.2.2.length_eq
        rw [Branches.length_nodes, List.length_range'] at hnodes
        show tree.pages.size ≤ _
        omega
      · intro c hc
        obtain ⟨d, hd, hb⟩ := exists_draft_of_buildPages hbuilt c hc
        exact (hread d hd).isWritten hb |>.mono (by omega)
  · cases hv

end Source

end GuidedLab
