import GuidedLab.Source.Text
import GuidedLab.Proofs.Component.Built
import GuidedLab.Proofs.Tree.Pages

/-!
# Loaded scripts

The loader makes every component with a constructor, so all components of a loaded script are new
ones (`built_of_script`), and since a script in the right form has a page, a loaded script has one
too (`isEmpty_of_script`).

The text of a script is read character by character, so what it spells is computed from its characters
(`script_of_ofList`). The characters of a text that is put together are told by those of its parts
(`append_eq_ofList`).
-/

namespace GuidedLab.Source

theorem ElementDraft.built_of_build {known : List String} {name : String} {e : ElementDraft}
    {c : Component} (h : e.build known name = .ok c) : c.Built := by
  cases e with
  | text style content =>
      cases h
      cases style with
      | normal => exact .text name content
      | header => exact .header name content
  | question content =>
      cases h
      exact .question name content
  | checkbox content =>
      cases h
      exact .checkbox name content
  | textQuestion content optional =>
      cases h
      exact .textQuestion name content optional
  | experiment sensor description =>
      cases h
      exact .experiment name sensor description
  | graph g =>
      rw [build] at h
      obtain ⟨graph, -, rfl⟩ := Success.map_eq_ok_iff.1 h
      exact .graph name graph
  | «export» =>
      cases h
      exact .exportPart name

mutual

/-- A component that is built from a draft is a new one. -/
theorem ComponentDraft.built_of_build {known : List String} :
    ∀ {d : ComponentDraft} {c : Component}, d.build known = .ok c → c.Built
  | .leaf name element, c, h => ElementDraft.built_of_build h
  | .sheet name orientation items, c, h => by
    rw [ComponentDraft.build] at h
    split at h
    · cases h
    · obtain ⟨cs, hi, rfl⟩ := Success.map_eq_ok_iff.1 h
      exact .sheet name orientation cs (built_of_buildItems hi)

/-- Items that are built from drafts are new ones. -/
theorem built_of_buildItems {known : List String} :
    ∀ {items : List ComponentDraft} {cs : List Component}, buildItems known items = .ok cs →
      ∀ c ∈ cs, c.Built
  | [], cs, h => by
    cases h
    exact nofun
  | d :: rest, cs, h => by
    rw [buildItems] at h
    obtain ⟨c, hd, h⟩ := Success.bind_eq_ok_iff.1 h
    obtain ⟨others, hr, h⟩ := Success.bind_eq_ok_iff.1 h
    cases h
    intro x hx
    rcases List.mem_cons.1 hx with rfl | hx
    · exact ComponentDraft.built_of_build hd
    · exact built_of_buildItems hr x hx

end

/-- What the pages of a draft with a page are built from. -/
theorem exists_cons_of_buildPages {known : List String} {branch : UInt32}
    {vacancy : Except Misfit Unit} {component : ComponentDraft} {outcomes : Outcomes}
    {rest : Pages} {n : Nat} {t : Branches Component}
    (h : buildPages known branch vacancy n (.cons component outcomes rest) = .ok t) :
    ∃ c after next, component.build known = .ok c ∧
      buildOutcomes known c.name (n + 1) .nil outcomes = .ok after ∧
      buildPages known 0 (vacant c.name 0 after) (n + 1 + outcomes.size) rest = .ok next ∧
      t = .cons branch n c (next.union after) .nil := by
  rw [buildPages] at h
  obtain ⟨c, hc, h⟩ := Success.bind_eq_ok_iff.1 h
  obtain ⟨_, -, h⟩ := Success.bind_eq_ok_iff.1 h
  obtain ⟨after, ho, h⟩ := Success.bind_eq_ok_iff.1 h
  obtain ⟨next, hr, h⟩ := Success.bind_eq_ok_iff.1 h
  cases h
  exact ⟨c, after, next, hc, ho, hr, rfl⟩

mutual

/-- The components of a draft's pages. -/
def Pages.components : Pages → List ComponentDraft
  | .nil => []
  | .cons component outcomes rest =>
    component :: (outcomes.components ++ rest.components)

/-- The components of the pages of outcomes. -/
def Outcomes.components : Outcomes → List ComponentDraft
  | .nil => []
  | .cons _ pages rest => pages.components ++ rest.components

end

mutual

/-- Each component of built pages is built from one of the drafts. -/
theorem exists_draft_of_buildPages {known : List String} {branch : UInt32}
    {vacancy : Except Misfit Unit} :
    ∀ {pages : Pages} {n : Nat} {t : Branches Component},
      buildPages known branch vacancy n pages = .ok t →
        ∀ c ∈ t.values, ∃ d ∈ pages.components, d.build known = .ok c
  | .nil, n, t, h => by
    cases h
    exact nofun
  | .cons component outcomes rest, n, t, h => by
    obtain ⟨c, after, next, hc, ho, hr, rfl⟩ := exists_cons_of_buildPages h
    intro x hx
    rw [Branches.values_cons, Branches.values_nil, List.append_nil, List.mem_cons] at hx
    rw [Pages.components]
    rcases hx with rfl | hx
    · exact ⟨component, List.mem_cons_self, hc⟩
    · rcases Branches.mem_values_union hx with hx | hx
      · obtain ⟨d, hd, hb⟩ := exists_draft_of_buildPages hr x hx
        exact ⟨d, List.mem_cons_of_mem _ (List.mem_append_right _ hd), hb⟩
      · rcases exists_draft_of_buildOutcomes ho x hx with hx | ⟨d, hd, hb⟩
        · cases hx
        · exact ⟨d, List.mem_cons_of_mem _ (List.mem_append_left _ hd), hb⟩

/-- Each component of built outcomes is built from one of the drafts, beside those built already. -/
theorem exists_draft_of_buildOutcomes {known : List String} {name : String} :
    ∀ {outcomes : Outcomes} {n : Nat} {built t : Branches Component},
      buildOutcomes known name n built outcomes = .ok t →
        ∀ c ∈ t.values, c ∈ built.values ∨ ∃ d ∈ outcomes.components, d.build known = .ok c
  | .nil, n, built, t, h => by
    cases h
    exact fun _ hx => Or.inl hx
  | .cons branch pages rest, n, built, t, h => by
    rw [buildOutcomes] at h
    obtain ⟨first, hp, h⟩ := Success.bind_eq_ok_iff.1 h
    intro x hx
    rw [Outcomes.components]
    rcases exists_draft_of_buildOutcomes h x hx with hx | ⟨d, hd, hb⟩
    · rcases Branches.mem_values_union hx with hx | hx
      · obtain ⟨d, hd, hb⟩ := exists_draft_of_buildPages hp x hx
        exact Or.inr ⟨d, List.mem_append_left _ hd, hb⟩
      · exact Or.inl hx
    · exact Or.inr ⟨d, List.mem_append_right _ hd, hb⟩

end

/-- The steps of loading that a loaded script has gone through. -/
theorem exists_draft_of_script {text : String} {s : Script} (h : script text = .ok s) :
    ∃ v draft tree, valueOf text = .ok v ∧ draftOf v = .ok draft ∧ draft.tree? = .ok tree ∧
      s = Script.new draft.title tree := by
  rw [script] at h
  obtain ⟨v, hv, h⟩ := Success.bind_eq_ok_iff.1 h
  obtain ⟨draft, hd, h⟩ := Success.bind_eq_ok_iff.1 h
  rw [scriptOf] at h
  split at h
  · next tree ht =>
      cases h
      exact ⟨v, draft, tree, hv, hd, ht, rfl⟩
  · cases h

theorem buildPages_of_tree? {draft : Draft} {tree : Tree} (h : draft.tree? = .ok tree) :
    buildPages draft.pages.experiments 0 (.ok ()) 0 draft.pages = .ok tree.pages := by
  rw [Draft.tree?] at h
  obtain ⟨t, ht, h⟩ := Success.bind_eq_ok_iff.1 h
  split at h
  · cases h
  · cases h
    rw [Pages.tree?] at ht
    split at ht
    · cases ht
    · next hb =>
        cases ht
        exact hb

/-- All components of a loaded script are new ones. -/
theorem built_of_script {text : String} {s : Script} (h : script text = .ok s) :
    ∀ c ∈ s.tree.components, c.Built := by
  obtain ⟨v, draft, tree, -, -, ht, rfl⟩ := exists_draft_of_script h
  intro c hc
  obtain ⟨d, -, hb⟩ := exists_draft_of_buildPages (buildPages_of_tree? ht) c hc
  exact ComponentDraft.built_of_build hb

theorem pages_ne_nil_of_pages? {v : Json.Value} {pages : Pages} (h : pages? v = some pages)
    (form : Schema.isPages v = true) : pages ≠ .nil := by
  cases v with
  | array values =>
      cases values with
      | nil => cases form
      | cons v rest =>
          rw [pages?, pageList?] at h
          obtain ⟨page, -, h⟩ := Option.bind_eq_some_iff.1 h
          obtain ⟨others, -, h⟩ := Option.bind_eq_some_iff.1 h
          cases h
          exact Pages.noConfusion
  | _ => cases form

/-- A draft of a value in form has a page. -/
theorem pages_ne_nil_of_draftOf {v : Json.Value} {draft : Draft} (h : draftOf v = .ok draft) :
    draft.pages ≠ .nil := by
  rw [draftOf] at h
  split at h
  · next hform =>
      cases v with
      | object members =>
          rw [Schema.isScript, Bool.and_eq_true, Schema.requires, Schema.requires] at hform
          split at h
          · next hdraft =>
              cases h
              rw [Draft.ofJson?] at hdraft
              obtain ⟨title, -, hdraft⟩ := Option.bind_eq_some_iff.1 hdraft
              obtain ⟨pages, hpages, hdraft⟩ := Option.bind_eq_some_iff.1 hdraft
              obtain ⟨value, hvalue, hpages⟩ := Option.bind_eq_some_iff.1 hpages
              cases hdraft
              rw [hvalue] at hform
              exact pages_ne_nil_of_pages? hpages hform.2
          · cases h
      | _ => cases hform
  · cases h

/-- A loaded script has a page. -/
theorem isEmpty_of_script {text : String} {s : Script} (h : script text = .ok s) :
    s.tree.isEmpty = false := by
  obtain ⟨v, draft, tree, -, hd, ht, rfl⟩ := exists_draft_of_script h
  have hb := buildPages_of_tree? ht
  cases hpages : draft.pages with
  | nil => exact absurd hpages (pages_ne_nil_of_draftOf hd)
  | cons component outcomes rest =>
      rw [hpages] at hb
      obtain ⟨c, after, next, -, -, -, htree⟩ := exists_cons_of_buildPages hb
      show tree.pages.isEmpty = false
      rw [htree, Branches.isEmpty]

/-! ### Texts by their characters -/

theorem append_eq_ofList {s t : String} {cs ds : List Char} (hs : s = .ofList cs)
    (ht : t = .ofList ds) : s ++ t = .ofList (cs ++ ds) := by
  rw [hs, ht, String.ofList_append]

/-- What the characters of a text spell is its script. -/
theorem script_of_ofList {text : String} {cs : List Char} {s : Script} (spelled : text = .ofList cs)
    (h : ((Json.value? Json.depthLimit cs).bind fun read =>
      if (Json.skipBlanks read.2).isEmpty then (draftOf read.1.settled >>= scriptOf).toOption
      else none) = some s) : script text = .ok s := by
  obtain ⟨⟨v, rest⟩, hvalue, h⟩ := Option.bind_eq_some_iff.1 h
  dsimp only at h
  split at h
  · next blank =>
      have hread : Json.ofText? text = some v := by
        rw [Json.ofText?, spelled, String.toList_ofList, hvalue]
        exact if_pos blank
      rw [script, valueOf, hread]
      exact Success.eq_ok_of_toOption h
  · cases h

end GuidedLab.Source
