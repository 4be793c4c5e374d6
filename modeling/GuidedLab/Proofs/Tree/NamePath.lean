import Mathlib.Data.List.Nodup
import GuidedLab.Proofs.Component.Parts
import GuidedLab.Proofs.Tree.Pages
import GuidedLab.Tree.NamePath

/-!
# Names and addresses

A name path that is resolved in any tree leads to a component with that name path, up to empty segments
(`namePath?_of_resolve?`). The other direction depends on the names: a tree is *named* when no two pages
and no two items of a sheet have one name and every name is a segment, not empty and without a slash
(`Tree.IsNamed`). Then every component is reached again by its name path (`IsNamed.resolve?_namePath?`),
and no two components share one (`IsNamed.namePath?_injective`). Names may still come again in other
sheets.
-/

namespace GuidedLab

namespace Text

/-- A text that is one segment of a name path. -/
def IsSegment (s : String) : Prop := s ≠ "" ∧ '/' ∉ s.toList

end Text

namespace Component

variable {c d : Component} {p : List Nat} {names : List String}

/-- No two items have one name. -/
def NamesApart (c : Component) : Prop := (c.items.map name).Nodup

/-- The positions that names lead down have these names. -/
theorem names?_of_positions? (h : c.positions? names = some p) :
    c.names? p = some (c.name :: names) := by
  induction names generalizing c p with
  | nil =>
      cases h
      rfl
  | cons s rest ih =>
      rw [positions?] at h
      obtain ⟨i, hi, h⟩ := Option.bind_eq_some_iff.1 h
      obtain ⟨d, hd, h⟩ := Option.bind_eq_some_iff.1 h
      obtain ⟨q, hq, rfl⟩ := Option.map_eq_some_iff.1 h
      obtain ⟨hlt, hname, -⟩ := List.findIdx?_eq_some_iff_getElem.1 hi
      obtain ⟨_, hget⟩ := List.getElem?_eq_some_iff.1 hd
      rw [hget] at hname
      rw [names?, hd, Option.bind_some, ih hq, of_decide_eq_true hname]
      rfl

theorem exists_names_of_names? {all : List String} (h : c.names? p = some all) :
    ∃ names, all = c.name :: names := by
  cases p with
  | nil =>
      cases h
      exact ⟨[], rfl⟩
  | cons i p =>
      rw [names?] at h
      obtain ⟨d, -, h⟩ := Option.bind_eq_some_iff.1 h
      obtain ⟨names, -, rfl⟩ := Option.map_eq_some_iff.1 h
      exact ⟨names, rfl⟩

/-- Every part has names, and they are names of parts. -/
theorem exists_names? (h : c.item? p = some d) :
    ∃ names, c.names? p = some (c.name :: names) ∧
      ∀ s ∈ names, ∃ q e, c.item? q = some e ∧ e.name = s := by
  induction p generalizing c with
  | nil => exact ⟨[], rfl, nofun⟩
  | cons i p ih =>
      obtain ⟨e, he, h⟩ := item?_cons_eq_some_iff.1 h
      obtain ⟨names, hnames, hparts⟩ := ih h
      refine ⟨e.name :: names, by rw [names?, he, Option.bind_some, hnames]; rfl, ?_⟩
      have hbelow : ∀ q, c.item? (i :: q) = e.item? q := by
        intro q
        rw [item?_cons, he, Option.bind_some]
      rw [List.forall_mem_cons]
      constructor
      · exact ⟨[i], e, by rw [hbelow, item?_nil], rfl⟩
      · intro s hs
        obtain ⟨q, f, hf, hname⟩ := hparts s hs
        exact ⟨i :: q, f, by rw [hbelow, hf], hname⟩

/-- Where items have different names, the first item of a name is the only one. -/
theorem NamesApart.findIdx?_eq (h : c.NamesApart) {i : Nat} (hi : c.items[i]? = some d) :
    (c.items.findIdx? fun e => e.name = d.name) = some i := by
  obtain ⟨hlt, rfl⟩ := List.getElem?_eq_some_iff.1 hi
  rw [List.findIdx?_eq_some_iff_getElem]
  refine ⟨hlt, decide_eq_true rfl, ?_⟩
  intro j hj hname
  have hlt' : i < (c.items.map name).length := by rwa [List.length_map]
  have hmap : (c.items.map name)[j] = (c.items.map name)[i] := by
    rw [List.getElem_map, List.getElem_map]
    exact of_decide_eq_true hname
  exact absurd ((List.Nodup.getElem_inj_iff h).1 hmap) (Nat.ne_of_lt hj)

/-- Where items have different names, the names of a row of positions lead down it again. -/
theorem positions?_of_names? (apart : c.Every NamesApart) (h : c.names? p = some (c.name :: names)) :
    c.positions? names = some p := by
  induction p generalizing c names with
  | nil =>
      cases h
      rfl
  | cons i p ih =>
      rw [names?] at h
      obtain ⟨d, hd, h⟩ := Option.bind_eq_some_iff.1 h
      obtain ⟨below, hbelow, h⟩ := Option.map_eq_some_iff.1 h
      cases h
      have hitem : c.item? [i] = some d := by rw [item?_cons, hd, Option.bind_some, item?_nil]
      obtain ⟨rest, rfl⟩ := exists_names_of_names? hbelow
      rw [positions?, apart.self.findIdx?_eq hd]
      simp only [Option.bind_eq_bind, Option.bind_some, hd, ih (apart.item hitem) hbelow,
        Option.map_some]

end Component

namespace Tree

variable {t : Tree} {a b : Address} {c d : Component} {path : String}

/-- What is asked of the names in a tree for name paths to be addresses. -/
structure IsNamed (t : Tree) : Prop where
  /-- No two pages have one name. -/
  pages : (t.components.map Component.name).Nodup
  /-- No two items of a sheet have one name. -/
  items : ∀ c ∈ t.components, c.Every Component.NamesApart
  /-- Every name is one segment. -/
  segments : ∀ c ∈ t.components, c.Every fun d => Text.IsSegment d.name

theorem name_of_findByName? {name : String} {node : Nat} (h : t.findByName? name = some node)
    (found : t.component? node = some c) : c.name = name := by
  rw [findByName?] at h
  obtain ⟨⟨n, d⟩, hpage, rfl⟩ := Option.map_eq_some_iff.1 h
  have hd := mem_preorder_pages_iff.1 (List.mem_of_find?_eq_some hpage)
  rw [found] at hd
  cases hd
  simpa using List.find?_some hpage

/-- Where pages have different names, the first page of a name is the only one. -/
theorem findByName?_eq_some (apart : (t.components.map Component.name).Nodup) {node : Nat}
    (found : t.component? node = some c) : t.findByName? c.name = some node := by
  have hmem := mem_preorder_pages_iff.2 found
  rw [findByName?, Option.map_eq_some_iff]
  obtain ⟨page, hpage⟩ : ∃ page, (t.pages.preorder.find? fun q => q.2.name = c.name) = some page :=
    Option.isSome_iff_exists.1 (List.find?_isSome.2 ⟨_, hmem, decide_eq_true rfl⟩)
  refine ⟨page, hpage, ?_⟩
  rw [components, Branches.values, List.map_map] at apart
  have hname : page.2.name = c.name := by simpa using List.find?_some hpage
  rw [List.inj_on_of_nodup_map apart (List.mem_of_find?_eq_some hpage) hmem hname]

/-- A name path that is resolved is the name path of what it leads to, without its empty segments. -/
theorem namePath?_of_resolve? (h : t.resolve? path = some a) :
    t.namePath? a = some (Text.join '/' (segments path)) := by
  rw [resolve?] at h
  split at h
  · cases h
  · next name rest hsegments =>
      obtain ⟨node, hnode, h⟩ := Option.bind_eq_some_iff.1 h
      obtain ⟨c, hc, h⟩ := Option.bind_eq_some_iff.1 h
      obtain ⟨items, hitems, rfl⟩ := Option.map_eq_some_iff.1 h
      rw [namePath?, hc, Option.bind_some, Component.names?_of_positions? hitems, Option.map_some,
        name_of_findByName? hnode hc, hsegments]

/-- The segments of joined segments. -/
theorem segments_join {names : List String} (ne : names ≠ [])
    (h : ∀ s ∈ names, Text.IsSegment s) : segments (Text.join '/' names) = names := by
  rw [segments, Text.split_join ne fun s hs => (h s hs).2, List.filter_eq_self]
  exact fun s hs => decide_eq_true (h s hs).1

namespace IsNamed

/-- Every component is reached again by its name path. -/
theorem resolve?_namePath? (named : t.IsNamed) (found : t.at? a = some c) :
    ∃ path, t.namePath? a = some path ∧ t.resolve? path = some a := by
  obtain ⟨page, hpage, hc⟩ := Option.bind_eq_some_iff.1 found
  obtain ⟨names, hnames, hparts⟩ := Component.exists_names? hc
  have hmem : page ∈ t.components := mem_components_iff.2 ⟨_, hpage⟩
  have hsegments : ∀ s ∈ page.name :: names, Text.IsSegment s := by
    rw [List.forall_mem_cons]
    constructor
    · exact (named.segments page hmem).self
    · intro s hs
      obtain ⟨q, e, he, rfl⟩ := hparts s hs
      exact named.segments page hmem q e he
  refine ⟨Text.join '/' (page.name :: names), ?_, ?_⟩
  · rw [namePath?, hpage, Option.bind_some, hnames, Option.map_some]
  · rw [resolve?, segments_join (List.cons_ne_nil _ _) hsegments]
    simp only [Option.bind_eq_bind, findByName?_eq_some named.pages hpage, hpage, Option.bind_some,
      Component.positions?_of_names? (named.items page hmem) hnames, Option.map_some]

/-- Different components have different name paths. -/
theorem namePath?_injective (named : t.IsNamed) (ha : t.at? a = some c) (hb : t.at? b = some d)
    (h : t.namePath? a = t.namePath? b) : a = b := by
  obtain ⟨path, hpath, hresolve⟩ := named.resolve?_namePath? ha
  obtain ⟨path', hpath', hresolve'⟩ := named.resolve?_namePath? hb
  rw [hpath, hpath'] at h
  cases h
  rw [hresolve] at hresolve'
  exact Option.some.inj hresolve'

end IsNamed

end Tree

end GuidedLab
