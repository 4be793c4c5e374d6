import GuidedLab.Proofs.Script.Run
import GuidedLab.Proofs.Source.Consistent
import GuidedLab.Proofs.Source.Readable
import GuidedLab.Proofs.Tree.Lasting
import GuidedLab.Proofs.Tree.NamePath

/-!
# Names in loaded scripts

The three things that are asked of the names in a tree come from three places of the loader. The form
asks of every name that it is one segment (`isSegment_of_component?`), the builder refuses two items of
a sheet with one name (`ComponentDraft.Describes.namesApart`), and the names of all pages are compared
at the end. Together, a loaded script is named (`isNamed_of_script`), and since names last it stays so.
So name paths and addresses of its components are the same at all times (`name_paths_address`).
-/

namespace GuidedLab

theorem Component.namesApart_of_withoutChanges_eq {c d : Component}
    (same : c.withoutChanges = d.withoutChanges) (h : d.NamesApart) : c.NamesApart := by
  have hitems : c.items.map withoutChanges = d.items.map withoutChanges := by
    have hitems := congrArg items same
    rwa [withoutChanges, withoutChanges, items_erased, items_erased] at hitems
  rw [NamesApart, Lists.map_eq_of_map_eq hitems fun _ _ _ _ _ => name_eq_of_withoutChanges_eq]
  exact h

theorem Tree.IsNamed.of_withoutChanges_eq {t u : Tree} (h : t.IsNamed)
    (same : u.withoutChanges = t.withoutChanges) : u.IsNamed := by
  constructor
  · rw [Lists.map_eq_of_map_eq (components_map_eq same)
      fun _ _ _ _ _ => Component.name_eq_of_withoutChanges_eq]
    exact h.pages
  · intro d hd
    obtain ⟨c, hc, hcd⟩ := exists_mem_components_of_withoutChanges_eq same hd
    exact (h.items c hc).of_withoutChanges_eq hcd
      fun _ _ => Component.namesApart_of_withoutChanges_eq
  · intro d hd
    obtain ⟨c, hc, hcd⟩ := exists_mem_components_of_withoutChanges_eq same hd
    apply (h.segments c hc).of_withoutChanges_eq hcd
    intro e e' hsame hsegment
    rwa [Component.name_eq_of_withoutChanges_eq hsame]

namespace Source

open Json (Value)

/-! ### Names that are read -/

theorem isSegment_of_isName {s : String} (h : Schema.isName (.string s) = true) :
    Text.IsSegment s := by
  rw [Schema.isName, Bool.and_eq_true, Bool.not_eq_true', Bool.not_eq_true'] at h
  obtain ⟨hfilled, hslash⟩ := h
  constructor
  · rintro rfl
    cases hfilled
  · simpa using hslash

/-- Components that values spell are spelled by one of them each. -/
theorem exists_component?_of_mem {vs : List Value} {ds : List ComponentDraft} {d : ComponentDraft}
    (h : components? vs = some ds) (hd : d ∈ ds) : ∃ v ∈ vs, component? v = some d := by
  induction vs generalizing ds with
  | nil =>
      cases h
      cases hd
  | cons v rest ih =>
      rw [components?] at h
      obtain ⟨c, hc, h⟩ := Option.bind_eq_some_iff.1 h
      obtain ⟨cs, hcs, h⟩ := Option.bind_eq_some_iff.1 h
      cases h
      rcases List.mem_cons.1 hd with rfl | hd
      · exact ⟨v, List.mem_cons_self, hc⟩
      · obtain ⟨w, hw, hwd⟩ := ih hcs hd
        exact ⟨w, List.mem_cons_of_mem _ hw, hwd⟩

/-- Items are spelled by components in form that nest less deep. -/
theorem exists_component?_of_items? {members : Schema.Members} {ds : List ComponentDraft}
    {d : ComponentDraft} (form : Schema.itemsAreComponents members = true)
    (h : items? members = some ds) (hd : d ∈ ds) :
    ∃ v, component? v = some d ∧ Schema.isComponent v = true ∧
      v.depth < (Value.object members).depth := by
  rw [walk_eq (f := items?) "items" fun _ _ _ => by rw [items?]] at h
  cases hw : Value.member? "items" members with
  | none =>
      rw [hw] at h
      cases h
  | some w =>
      rw [hw] at h
      have harray := form_of_walk "items" (fun _ _ _ => rfl) form hw
      obtain ⟨vs, rfl⟩ := Schema.ofArrays_isComponentArray w harray
      obtain ⟨v, hv, hspelled⟩ := exists_component?_of_mem h hd
      refine ⟨v, hspelled, (form_each_iff (f := Schema.areComponents) rfl fun _ _ => rfl).1 harray v hv,
        Nat.lt_trans (Value.depth_lt_of_mem_listed (v := .array vs) hv) (Value.depth_lt_of_under? hw)⟩

/-- The name of every part that is read from a value in form is one segment. -/
theorem isSegment_of_component? {v : Value} {d : ComponentDraft} (form : Schema.isComponent v = true)
    (h : component? v = some d) : ∀ part ∈ d.parts, Text.IsSegment part.name := by
  induction v using Value.induction_depth generalizing d with
  | step v ih =>
      obtain ⟨members, rfl⟩ := Schema.ofObjects_isComponent v form
      rw [Schema.isComponent, Bool.and_eq_true, Option.any_eq_true] at form
      obtain ⟨hname, kind, hkind, form⟩ := form
      rw [Bool.and_eq_true] at form
      obtain ⟨name, hread, hform⟩ := exists_text? Schema.ofTexts_isName hname
      have hsegment := isSegment_of_isName hform
      rw [component?, hkind, hread, Option.bind_eq_bind, Option.bind_some, Option.bind_eq_bind,
        Option.bind_some] at h
      split at h
      · next hsheet =>
          obtain ⟨orientation, -, h⟩ := Option.bind_eq_some_iff.1 h
          obtain ⟨items, hitems, h⟩ := Option.bind_eq_some_iff.1 h
          cases h
          have hforms : Schema.itemsAreComponents members = true := by simpa [hsheet] using form.2
          rw [ComponentDraft.parts, ComponentDraft.partsOfItems_eq_flatMap, List.forall_mem_cons]
          refine ⟨hsegment, ?_⟩
          intro part hpart
          obtain ⟨item, hitem, hpart⟩ := List.mem_flatMap.1 hpart
          obtain ⟨v, hspelled, hcomponent, hdepth⟩ := exists_component?_of_items? hforms hitems hitem
          exact ih v hdepth hcomponent hspelled part hpart
      · obtain ⟨element, -, rfl⟩ := Option.map_eq_some_iff.1 h
        rw [ComponentDraft.parts, List.forall_mem_singleton]
        exact hsegment

/-! ### Names that are built -/

namespace ComponentDraft

variable {number : Option UInt32} {d : ComponentDraft} {c e : Component}

theorem self_mem_parts (d : ComponentDraft) : d ∈ d.parts := by
  cases d with
  | leaf => exact List.mem_cons_self
  | sheet => exact List.mem_cons_self

/-- The parts of what is described are described by the parts of the draft. -/
theorem Describes.exists_part (h : Describes number d c) {p : List Nat} (he : c.item? p = some e) :
    ∃ part ∈ d.parts, ∃ n, Describes n part e := by
  induction p generalizing number d c with
  | nil =>
      rw [Component.item?_nil] at he
      cases he
      exact ⟨d, d.self_mem_parts, number, h⟩
  | cons i p ih =>
      obtain ⟨x, hx, hbelow⟩ := Component.item?_cons_eq_some_iff.1 he
      cases h with
      | leaf => cases hx
      | @sheet items cs _ name orientation length each =>
          have hlt : i < items.length := length ▸ (List.getElem?_eq_some_iff.1 hx).1
          have hitem := List.getElem?_eq_getElem hlt
          obtain ⟨part, hpart, hdescribed⟩ := ih (each i _ x hitem hx) hbelow
          refine ⟨part, ?_, hdescribed⟩
          rw [parts, partsOfItems_eq_flatMap]
          exact List.mem_cons_of_mem _ (List.mem_flatMap.2 ⟨_, List.mem_of_getElem? hitem, hpart⟩)

/-- What fits has items with different names. -/
theorem Describes.namesApart (h : Describes number d c) {known : List String} (fits : d.Fits known) :
    c.NamesApart := by
  cases h with
  | leaf => exact List.nodup_nil
  | @sheet items cs _ name orientation length each =>
      have hnames : cs.map Component.name = items.map ComponentDraft.name := by
        apply List.ext_getElem (by rw [List.length_map, List.length_map, length])
        intro i hi hi'
        rw [List.length_map] at hi hi'
        rw [List.getElem_map, List.getElem_map]
        exact (each i _ _ (List.getElem?_eq_getElem hi') (List.getElem?_eq_getElem hi)).name_eq
      rw [Component.NamesApart, Component.items, hnames]
      exact fits

end ComponentDraft

theorem names_nodup_of_tree? {draft : Draft} {tree : Tree} (h : draft.tree? = .ok tree) :
    (tree.components.map Component.name).Nodup := by
  rw [Draft.tree?] at h
  obtain ⟨t, -, h⟩ := Success.bind_eq_ok_iff.1 h
  split at h
  · cases h
  · next hnone =>
      cases h
      exact (repeated?_eq_none_iff.1 hnone).1

/-- Every name in a loaded script is one segment, and no two pages and no two items of a sheet have one
name. -/
theorem isNamed_of_script {text : String} {s : Script} (h : script text = .ok s) : s.tree.IsNamed := by
  obtain ⟨v, draft, tree, -, hd, ht, rfl⟩ := exists_draft_of_script h
  obtain ⟨-, hread⟩ := readFrom_of_draftOf hd
  have hbuilt := exists_draft_of_buildPages (buildPages_of_tree? ht)
  refine ⟨names_nodup_of_tree? ht, ?_, ?_⟩
  · intro c hc p e he
    obtain ⟨d, -, hb⟩ := hbuilt c hc
    obtain ⟨part, hpart, _, hdescribed⟩ := (ComponentDraft.describes_of_build hb).exists_part he
    exact hdescribed.namesApart (ComponentDraft.exists_build_iff.1 ⟨c, hb⟩ part hpart)
  · intro c hc p e he
    obtain ⟨d, hdraft, hb⟩ := hbuilt c hc
    obtain ⟨part, hpart, _, hdescribed⟩ := (ComponentDraft.describes_of_build hb).exists_part he
    obtain ⟨w, form, hspelled, -⟩ := hread d hdraft
    rw [hdescribed.name_eq]
    exact isSegment_of_component? form hspelled part hpart

/-- A name path that is resolved in a tree is the name path of what it leads to, without its empty
segments. In a loaded script, at all times, every component has a name path that leads to it, and no two
components have the same. -/
theorem name_paths_address :
    (∀ (t : Tree) (path : String) (a : Address), t.resolve? path = some a →
      t.namePath? a = some (Text.join '/' (Tree.segments path))) ∧
    ∀ (text : String) (s : Script), script text = .ok s → ∀ calls : List Script.Call,
      (∀ a c, (s.after calls).tree.at? a = some c →
        ∃ path, (s.after calls).tree.namePath? a = some path ∧
          (s.after calls).tree.resolve? path = some a) ∧
      ∀ a b c d, (s.after calls).tree.at? a = some c → (s.after calls).tree.at? b = some d → a ≠ b →
        (s.after calls).tree.namePath? a ≠ (s.after calls).tree.namePath? b := by
  refine ⟨fun t path a h => Tree.namePath?_of_resolve? h, ?_⟩
  intro text s h calls
  have hnamed : (s.after calls).tree.IsNamed :=
    (isNamed_of_script h).of_withoutChanges_eq (Script.withoutChanges_after s calls)
  constructor
  · exact fun a c found => hnamed.resolve?_namePath? found
  · exact fun a b c d ha hb hne hpath => hne (hnamed.namePath?_injective ha hb hpath)

/-- The question on the last page has the name path of its page and itself, which leads to it
with slashes to spare, and the pages have other name paths. -/
theorem name_paths_address_branched :
    branchedTree.namePath? ⟨2, [0]⟩ = some "drop/time" ∧
    branchedTree.resolve? "drop/time" = some ⟨2, [0]⟩ ∧
    branchedTree.namePath? ⟨1, []⟩ ≠ branchedTree.namePath? ⟨2, []⟩ := by
  obtain ⟨hresolved, hloaded⟩ := name_paths_address
  obtain ⟨hpaths, hdifferent⟩ := hloaded branchedText _ script_branchedText []
  have hresolve : branchedTree.resolve? "/drop//time" = some ⟨2, [0]⟩ := by decide +kernel
  have hpath : branchedTree.namePath? ⟨2, [0]⟩ = some "drop/time" := by
    rw [hresolved _ _ _ hresolve]
    decide +kernel
  refine ⟨hpath, ?_, ?_⟩
  · obtain ⟨c, hc⟩ : ∃ c, branchedTree.at? ⟨2, [0]⟩ = some c :=
      Option.isSome_iff_exists.1 (by decide +kernel)
    obtain ⟨path, hnames, hleads⟩ := hpaths _ c hc
    cases hpath.symm.trans hnames
    exact hleads
  · obtain ⟨c, hc⟩ : ∃ c, branchedTree.at? ⟨1, []⟩ = some c :=
      Option.isSome_iff_exists.1 (by decide +kernel)
    obtain ⟨d, hd⟩ : ∃ d, branchedTree.at? ⟨2, []⟩ = some d :=
      Option.isSome_iff_exists.1 (by decide +kernel)
    exact hdifferent _ _ c d hc hd (by decide)

end Source

end GuidedLab
