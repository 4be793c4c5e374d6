import GuidedLab.Source.Text
import GuidedLab.Proofs.Text.Marked
import GuidedLab.Proofs.Tree.Outline

/-!
# What a description tells

A description is read from the left. Kinds end at the `<` of the name, since no kind has one,
numbers end at the character after their digits, and the escapes of a name tell its characters
apart. What is *not* escaped is the `>` that ends a name, so a name may go on with what looks like
its end: two pages can be described like one page with a long name, and then a snapshot of the one
script is taken back by the other.

A description therefore tells the structure only together with the names
(`description_tells_outline`). The names need not be given where no name has a `>` followed by the
character that comes after a name in its place: `Legible` says that of all names of a tree.
-/

namespace GuidedLab

namespace Fingerprint

open Text

/-- The characters that an escape of two characters may end in, and what each stands for. -/
def unescaped (c : Char) : Char :=
  if c = 't' then '\t' else if c = 'r' then '\r' else if c = 'n' then '\n' else c

/-- A character is written as itself, as a backslash and a character, or by its number. -/
theorem escaped_cases (c : Char) :
    (escaped c = [c] ∧ c ≠ '\\') ∨ (∃ d, escaped c = ['\\', d] ∧ d ≠ 'u' ∧ unescaped d = c) ∨
      escaped c = '\\' :: 'u' :: '\x7b' :: (hexDigits c.toNat ++ ['\x7d']) := by
  rw [escaped]
  split
  · next h => exact Or.inr (Or.inl ⟨'t', rfl, by decide, h.symm⟩)
  · split
    · next h => exact Or.inr (Or.inl ⟨'r', rfl, by decide, h.symm⟩)
    · split
      · next h => exact Or.inr (Or.inl ⟨'n', rfl, by decide, h.symm⟩)
      · split
        · next h =>
            refine Or.inr (Or.inl ⟨c, rfl, ?_⟩)
            rw [Bool.or_eq_true, Bool.or_eq_true, decide_eq_true_eq, decide_eq_true_eq,
              decide_eq_true_eq] at h
            rcases h with (rfl | rfl) | rfl <;> decide
        · next h =>
            split
            · refine Or.inl ⟨rfl, ?_⟩
              rintro rfl
              exact h (by decide)
            · exact Or.inr (Or.inr rfl)

/-- The characters of a text are told apart by their escapes. -/
theorem escaped_inj {c d : Char} {s t : List Char} (h : escaped c ++ s = escaped d ++ t) :
    c = d ∧ s = t := by
  rcases escaped_cases c with ⟨hc, hc'⟩ | ⟨x, hc, hx, hxc⟩ | hc <;>
    rcases escaped_cases d with ⟨hd, hd'⟩ | ⟨y, hd, hy, hyd⟩ | hd <;> rw [hc, hd] at h
  · injection h with hcd hs
    exact ⟨hcd, hs⟩
  · injection h with hcd
    exact absurd hcd hc'
  · injection h with hcd
    exact absurd hcd hc'
  · injection h with hcd
    exact absurd hcd.symm hd'
  · injection h with _ h
    injection h with hxy hs
    exact ⟨by rw [← hxc, ← hyd, hxy], hs⟩
  · injection h with _ h
    injection h with hxu
    exact absurd hxu hx
  · injection h with hcd
    exact absurd hcd.symm hd'
  · injection h with _ h
    injection h with hyu
    exact absurd hyu.symm hy
  · simp only [List.cons_append, List.append_assoc, List.nil_append] at h
    injection h with _ h
    injection h with _ h
    injection h with _ h
    have hend : ∀ n, '\x7d' ∉ hexDigits n := fun n => not_mem_toDigits (by omega) (by decide)
    obtain ⟨hdigits, hs⟩ := append_mark_inj (hend _) (hend _) h
    refine ⟨Char.toNat_inj.1 (toDigits_injective (by omega) (by omega) hdigits), hs⟩

/-- A name that has no `>` followed by a mark ends where those two come first. -/
theorem closed_inj {m : Char} (hm : escaped m = [m]) (hne : m ≠ '>') {cs ds s t : List Char}
    (hc : ¬ ['>', m] <:+: cs) (hd : ¬ ['>', m] <:+: ds)
    (h : cs.flatMap escaped ++ '>' :: m :: s = ds.flatMap escaped ++ '>' :: m :: t) :
    cs = ds ∧ s = t := by
  -- A name that ends cannot have a longer name beside it, which would go on with the pair.
  have key : ∀ {ds s t : List Char} (d : Char), ¬ ['>', m] <:+: d :: ds →
      '>' :: m :: s ≠ (d :: ds).flatMap escaped ++ '>' :: m :: t := by
    intro ds s t d hd h
    rw [List.flatMap_cons, List.append_assoc] at h
    have hclose : escaped '>' ++ m :: s = escaped d ++ (ds.flatMap escaped ++ '>' :: m :: t) := h
    obtain ⟨rfl, hrest⟩ := escaped_inj hclose
    cases ds with
    | nil =>
        injection hrest with hm'
        exact hne hm'
    | cons e ds =>
        rw [List.flatMap_cons, List.append_assoc] at hrest
        have hmark : escaped m ++ s = escaped e ++ (ds.flatMap escaped ++ '>' :: m :: t) := by
          rw [hm]
          exact hrest
        obtain ⟨rfl, -⟩ := escaped_inj hmark
        exact hd ⟨[], ds, rfl⟩
  induction cs generalizing ds with
  | nil =>
      cases ds with
      | nil =>
          injection h with _ h
          injection h with _ hs
          exact ⟨rfl, hs⟩
      | cons d ds => exact absurd h (key d hd)
  | cons c cs ih =>
      cases ds with
      | nil => exact absurd h.symm (key c hc)
      | cons d ds =>
          rw [List.flatMap_cons, List.flatMap_cons, List.append_assoc, List.append_assoc] at h
          obtain ⟨rfl, hrest⟩ := escaped_inj h
          obtain ⟨rfl, hs⟩ := ih (fun hin => hc (hin.trans (List.suffix_cons c cs).isInfix))
            (fun hin => hd (hin.trans (List.suffix_cons c ds).isInfix)) hrest
          exact ⟨rfl, hs⟩

/-- Two names before a mark are told apart if they are the same or have no `>` before that mark. -/
theorem name_inj {m : Char} (hm : escaped m = [m]) (hne : m ≠ '>') {x y : String}
    {s t : List Char} (told : x = y ∨ ¬ ['>', m] <:+: x.toList ∧ ¬ ['>', m] <:+: y.toList)
    (h : name x ++ m :: s = name y ++ m :: t) : x = y ∧ s = t := by
  rcases told with rfl | ⟨hx, hy⟩
  · have hs := List.append_cancel_left h
    injection hs with _ hs
    exact ⟨rfl, hs⟩
  · rw [name, name, List.cons_append, List.cons_append] at h
    injection h with _ h
    rw [List.append_assoc, List.append_assoc] at h
    obtain ⟨hxy, hs⟩ := closed_inj hm hne hx hy h
    exact ⟨String.toList_inj.1 hxy, hs⟩

theorem link_inj {k l : UInt32 × Nat} {s t : List Char} (h : link k ++ s = link l ++ t) :
    k = l ∧ s = t := by
  have digits : ∀ n, (Nat.repr n).toList = Nat.toDigits 10 n := fun n => Nat.toList_repr
  have colon : ∀ n, ':' ∉ Nat.toDigits 10 n := fun n => not_mem_toDigits (by omega) (by decide)
  have comma : ∀ n, ',' ∉ Nat.toDigits 10 n := fun n => not_mem_toDigits (by omega) (by decide)
  rw [link, link, digits, digits, digits, digits] at h
  simp only [List.append_assoc, List.cons_append, List.nil_append] at h
  obtain ⟨hb, h⟩ := append_mark_inj (colon _) (colon _) h
  obtain ⟨hp, hs⟩ := append_mark_inj (comma _) (comma _) h
  have hb := toDigits_injective (by omega) (by omega) hb
  have hp := toDigits_injective (by omega) (by omega) hp
  exact ⟨Prod.ext (UInt32.toNat_inj.1 hb) hp, hs⟩

/-- A link starts with a digit. -/
theorem link_ne_close (l : UInt32 × Nat) (s t : List Char) : link l ++ s ≠ '\x7d' :: t := by
  intro h
  have digits : (Nat.repr l.1.toNat).toList = Nat.toDigits 10 l.1.toNat := Nat.toList_repr
  have hnot : '\x7d' ∉ Nat.toDigits 10 l.1.toNat := not_mem_toDigits (by omega) (by decide)
  rw [link, digits] at h
  cases hd : Nat.toDigits 10 l.1.toNat with
  | nil => exact Nat.toDigits_ne_nil hd
  | cons c cs =>
      rw [hd] at h hnot
      injection h with hc
      exact hnot (hc ▸ List.mem_cons_self)

theorem links_inj {ks ls : List (UInt32 × Nat)} {s t : List Char}
    (h : ks.flatMap link ++ '\x7d' :: s = ls.flatMap link ++ '\x7d' :: t) : ks = ls ∧ s = t := by
  induction ks generalizing ls with
  | nil =>
      cases ls with
      | nil =>
          injection h with _ hs
          exact ⟨rfl, hs⟩
      | cons l ls =>
          rw [List.flatMap_cons, List.append_assoc] at h
          exact absurd h.symm (link_ne_close l _ _)
  | cons k ks ih =>
      cases ls with
      | nil =>
          rw [List.flatMap_cons, List.append_assoc] at h
          exact absurd h (link_ne_close k _ _)
      | cons l ls =>
          rw [List.flatMap_cons, List.flatMap_cons, List.append_assoc, List.append_assoc] at h
          obtain ⟨rfl, hrest⟩ := link_inj h
          obtain ⟨rfl, hs⟩ := ih hrest
          exact ⟨rfl, hs⟩

end Fingerprint

namespace Element

/-- The names of all kinds. -/
def labels : List String :=
  ["header", "text", "question", "checkbox_question", "text_question", "experiment", "graph",
    "export"]

theorem label_mem_labels (e : Element) : e.label ∈ labels := by
  cases e with
  | text style s => cases style <;> simp [label, labels]
  | _ => simp [label, labels]

theorem label_ne_sheet (e : Element) : e.label ≠ "sheet" := by
  have hlabels : ∀ l ∈ labels, l ≠ "sheet" := by decide
  exact hlabels _ e.label_mem_labels

end Element

namespace Component

mutual

/-- The names of a component and its items, a sheet before its items. -/
def allNames : Component → List String
  | .leaf name .. => [name]
  | .sheet name _ _ items => name :: itemNames items

/-- The names of items, one after the other. -/
def itemNames : List Component → List String
  | [] => []
  | c :: rest => allNames c ++ itemNames rest

end

/-- The character after the name in a description, given the one after the component. -/
def closing (mark : Char) : Component → Char
  | .leaf .. => mark
  | .sheet .. => '['

/-- The name does not have what looks like its end. -/
def NameEnds (mark : Char) (c : Component) : Prop :=
  ¬ ['>', c.closing mark] <:+: c.name.toList

/-- No name in a component has what looks like its end. -/
def Legible (mark : Char) (c : Component) : Prop :=
  c.NameEnds mark ∧ ∀ d ∈ c.items, d.Every (NameEnds ',')

/-- What tells the names of two components: either they are legible or they are known to agree, up
to the names that come after. -/
def Told (mark : Char) (c d : Component) (ms ns : List String) : Prop :=
  c.Legible mark ∧ d.Legible mark ∨ c.allNames ++ ms = d.allNames ++ ns

theorem Every.legible {c : Component} (h : c.Every (NameEnds ',')) : c.Legible ',' := by
  cases c with
  | leaf name state element => exact ⟨h.self, nofun⟩
  | sheet name state orientation items =>
      rw [every_sheet] at h
      exact h

theorem allNames_eq_cons (c : Component) : c.allNames = c.name :: itemNames c.items := by
  cases c <;> rfl

theorem itemNames_eq_flatMap (items : List Component) :
    itemNames items = items.flatMap allNames := by
  induction items with
  | nil => rfl
  | cons c rest ih => rw [itemNames, List.flatMap_cons, ih]

/-- Names are part of the outline. -/
theorem allNames_eq_of_outline_eq {c d : Component} (h : c.outline = d.outline) :
    c.allNames = d.allNames := by
  induction c using Component.induction generalizing d with
  | leaf name state element =>
      obtain ⟨state', element', rfl, -⟩ := exists_leaf_of_outline_eq h.symm
      rfl
  | sheet name state orientation items ih =>
      obtain ⟨state', orientation', items', rfl, hitems⟩ := exists_sheet_of_outline_eq h.symm
      rw [allNames, allNames, itemNames_eq_flatMap, itemNames_eq_flatMap]
      congr 1
      exact Lists.flatMap_eq_of_map_eq hitems.symm ih

/-- The name of the component itself is told. -/
theorem Told.name {mark : Char} {c d : Component} {ms ns : List String} (h : Told mark c d ms ns)
    (same : c.closing mark = d.closing mark) :
    c.name = d.name ∨ ¬ ['>', c.closing mark] <:+: c.name.toList ∧
      ¬ ['>', c.closing mark] <:+: d.name.toList := by
  rcases h with ⟨hc, hd⟩ | h
  · exact Or.inr ⟨hc.1, same ▸ hd.1⟩
  · rw [allNames_eq_cons, allNames_eq_cons] at h
    injection h with h
    exact Or.inl h

end Component

namespace Fingerprint

open Text

/-- No kind has the character that starts a name, so the kind ends where the name starts. -/
theorem kind_inj {k l : String} (hk : '<' ∉ k.toList) (hl : '<' ∉ l.toList) {x y : String}
    {s t : List Char} (h : k.toList ++ name x ++ s = l.toList ++ name y ++ t) :
    k = l ∧ name x ++ s = name y ++ t := by
  rw [name, name, List.append_assoc, List.append_assoc] at h
  obtain ⟨hkl, hs⟩ := append_mark_inj hk hl h
  exact ⟨String.toList_inj.1 hkl, congrArg (List.cons '<') hs⟩

theorem start_not_mem_label (e : Element) : '<' ∉ e.label.toList := by
  have hlabels : ∀ l ∈ Element.labels, '<' ∉ l.toList := by decide
  exact hlabels _ e.label_mem_labels

/-- A component starts with its kind. -/
theorem exists_component_cons (c : Component) : ∃ x xs, component c = x :: xs ∧ x ≠ ']' := by
  have key : ∀ l : String, l ∈ "sheet" :: Element.labels →
      ∃ x xs, l.toList = x :: xs ∧ x ≠ ']' := by
    intro l hl
    have hfirst : ∀ l ∈ "sheet" :: Element.labels, l.toList.head?.any (· ≠ ']') = true := by decide
    cases hcs : l.toList with
    | nil =>
        have := hfirst l hl
        rw [hcs] at this
        cases this
    | cons x xs =>
        have := hfirst l hl
        rw [hcs] at this
        exact ⟨x, xs, rfl, by simpa using this⟩
  cases c with
  | leaf n state element =>
      obtain ⟨x, xs, hl, hx⟩ := key _ (List.mem_cons_of_mem _ element.label_mem_labels)
      exact ⟨x, xs ++ name n, by rw [component_leaf, hl, List.cons_append], hx⟩
  | sheet n state orientation items =>
      obtain ⟨x, xs, hl, hx⟩ := key _ List.mem_cons_self
      exact ⟨x, xs ++ name n ++ '[' :: (itemList items ++ [']']), by
        rw [component_sheet, hl]
        simp only [List.cons_append], hx⟩

theorem component_ne_close (c : Component) (s t : List Char) : component c ++ s ≠ ']' :: t := by
  intro h
  obtain ⟨x, xs, hc, hx⟩ := exists_component_cons c
  rw [hc] at h
  injection h with h
  exact hx h

/-- Items are told apart when each of them is. -/
theorem itemList_inj {cs ds : List Component} {s t : List Char} {ms ns : List String}
    (each : ∀ c ∈ cs, ∀ {d : Component} {s t : List Char} {ms ns : List String},
      c.Told ',' d ms ns → component c ++ ',' :: s = component d ++ ',' :: t →
        c.outline = d.outline ∧ s = t)
    (told : (∀ c ∈ cs, c.Legible ',') ∧ (∀ d ∈ ds, d.Legible ',') ∨
      Component.itemNames cs ++ ms = Component.itemNames ds ++ ns)
    (h : itemList cs ++ ']' :: s = itemList ds ++ ']' :: t) :
    cs.map Component.outline = ds.map Component.outline ∧ s = t := by
  induction cs generalizing ds with
  | nil =>
      cases ds with
      | nil =>
          injection h with _ hs
          exact ⟨rfl, hs⟩
      | cons d ds =>
          rw [itemList, itemList, List.append_assoc] at h
          exact absurd h.symm (component_ne_close d _ _)
  | cons c cs ih =>
      cases ds with
      | nil =>
          rw [itemList, itemList, List.append_assoc] at h
          exact absurd h (component_ne_close c _ _)
      | cons d ds =>
          rw [itemList, itemList, List.append_assoc, List.append_assoc, List.cons_append,
            List.cons_append] at h
          have hhead : c.Told ',' d (Component.itemNames cs ++ ms)
              (Component.itemNames ds ++ ns) := by
            rcases told with ⟨hc, hd⟩ | hnames
            · exact Or.inl ⟨hc c List.mem_cons_self, hd d List.mem_cons_self⟩
            · rw [Component.itemNames, Component.itemNames, List.append_assoc,
                List.append_assoc] at hnames
              exact Or.inr hnames
          obtain ⟨hcd, hrest⟩ := each c List.mem_cons_self hhead h
          have htail : (∀ c ∈ cs, c.Legible ',') ∧ (∀ d ∈ ds, d.Legible ',') ∨
              Component.itemNames cs ++ ms = Component.itemNames ds ++ ns := by
            rcases told with ⟨hc, hd⟩ | hnames
            · exact Or.inl ⟨fun c hm => hc c (List.mem_cons_of_mem _ hm),
                fun d hm => hd d (List.mem_cons_of_mem _ hm)⟩
            · rw [Component.itemNames, Component.itemNames, List.append_assoc, List.append_assoc,
                Component.allNames_eq_of_outline_eq hcd] at hnames
              exact Or.inr (List.append_cancel_left hnames)
          obtain ⟨hmap, hs⟩ := ih (fun c hm => each c (List.mem_cons_of_mem _ hm)) htail hrest
          exact ⟨by rw [List.map_cons, List.map_cons, hcd, hmap], hs⟩

/-- Before a mark that is not escaped, the description of a component tells its outline. -/
theorem component_inj {m : Char} (hm : escaped m = [m]) (hne : m ≠ '>') {c d : Component}
    {s t : List Char} {ms ns : List String} (told : c.Told m d ms ns)
    (h : component c ++ m :: s = component d ++ m :: t) : c.outline = d.outline ∧ s = t := by
  have sheet_start : '<' ∉ "sheet".toList := by decide
  -- Kinds are told before names, so what comes after the name is the same mark on both sides.
  induction c using Component.induction generalizing m d s t ms ns with
  | leaf n state element =>
      cases d with
      | leaf n' state' element' =>
          rw [component_leaf, component_leaf] at h
          obtain ⟨hlabel, h⟩ :=
            kind_inj (start_not_mem_label element) (start_not_mem_label element') h
          obtain ⟨hname, hs⟩ := name_inj hm hne (told.name rfl) h
          have hname : n = n' := hname
          exact ⟨by rw [Component.outline, Component.outline, hlabel, hname], hs⟩
      | sheet n' state' orientation' items' =>
          rw [component_leaf, component_sheet, List.append_assoc (_ ++ name n')] at h
          obtain ⟨hlabel, -⟩ := kind_inj (start_not_mem_label element) sheet_start h
          exact absurd hlabel element.label_ne_sheet
  | sheet n state orientation items ih =>
      cases d with
      | leaf n' state' element' =>
          rw [component_sheet, component_leaf, List.append_assoc (_ ++ name n)] at h
          obtain ⟨hlabel, -⟩ := kind_inj sheet_start (start_not_mem_label element') h
          exact absurd hlabel.symm element'.label_ne_sheet
      | sheet n' state' orientation' items' =>
          rw [component_sheet, component_sheet, List.append_assoc (_ ++ name n),
            List.append_assoc (_ ++ name n')] at h
          obtain ⟨-, h⟩ := kind_inj sheet_start sheet_start h
          rw [List.cons_append, List.cons_append] at h
          obtain ⟨hname, h⟩ := name_inj (m := '[') (by decide) (by decide) (told.name rfl) h
          have hname : n = n' := hname
          rw [List.append_assoc, List.append_assoc] at h
          have hitems : (∀ c ∈ items, c.Legible ',') ∧ (∀ d ∈ items', d.Legible ',') ∨
              Component.itemNames items ++ ms = Component.itemNames items' ++ ns := by
            rcases told with ⟨hc, hd⟩ | hnames
            · exact Or.inl ⟨fun c hm => (hc.2 c hm).legible, fun d hm => (hd.2 d hm).legible⟩
            · rw [Component.allNames, Component.allNames] at hnames
              injection hnames with _ hnames
              exact Or.inr hnames
          obtain ⟨hmap, hs⟩ := itemList_inj
            (fun c hc _ _ _ _ _ told h => ih c hc (by decide) (by decide) told h) hitems h
          injection hs with _ hs
          exact ⟨by rw [Component.outline_sheet, Component.outline_sheet, hname, hmap], hs⟩

/-- The described pages tell the outlines of their components and their branches. -/
theorem rows_inj {xs ys : List (Component × List (UInt32 × Nat))}
    (told : (∀ x ∈ xs, x.1.Legible '\x7b') ∧ (∀ y ∈ ys, y.1.Legible '\x7b') ∨
      (xs.flatMap fun x => x.1.allNames) = ys.flatMap fun y => y.1.allNames)
    (h : xs.flatMap row = ys.flatMap row) :
    (xs.map fun x => (x.1.outline, x.2)) = ys.map fun y => (y.1.outline, y.2) := by
  have hrow : ∀ x s, row x ++ s ≠ [] := by
    intro x s hx
    rw [row, List.append_assoc] at hx
    obtain ⟨-, hx⟩ := List.append_eq_nil_iff.1 hx
    cases hx
  induction xs generalizing ys with
  | nil =>
      cases ys with
      | nil => rfl
      | cons y ys =>
          rw [List.flatMap_cons] at h
          exact absurd h.symm (hrow y _)
  | cons x xs ih =>
      cases ys with
      | nil =>
          rw [List.flatMap_cons] at h
          exact absurd h (hrow x _)
      | cons y ys =>
          rw [List.flatMap_cons, List.flatMap_cons, row, row] at h
          simp only [List.append_assoc, List.cons_append, List.nil_append] at h
          have hhead : x.1.Told '\x7b' y.1 (xs.flatMap fun x => x.1.allNames)
              (ys.flatMap fun y => y.1.allNames) := by
            rcases told with ⟨hx, hy⟩ | hnames
            · exact Or.inl ⟨hx x List.mem_cons_self, hy y List.mem_cons_self⟩
            · rw [List.flatMap_cons, List.flatMap_cons] at hnames
              exact Or.inr hnames
          obtain ⟨hxy, h⟩ := component_inj (by decide) (by decide) hhead h
          obtain ⟨hlinks, h⟩ := links_inj h
          injection h with _ h
          have htail : (∀ x ∈ xs, x.1.Legible '\x7b') ∧ (∀ y ∈ ys, y.1.Legible '\x7b') ∨
              (xs.flatMap fun x => x.1.allNames) = ys.flatMap fun y => y.1.allNames := by
            rcases told with ⟨hx, hy⟩ | hnames
            · exact Or.inl ⟨fun x hm => hx x (List.mem_cons_of_mem _ hm),
                fun y hm => hy y (List.mem_cons_of_mem _ hm)⟩
            · rw [List.flatMap_cons, List.flatMap_cons,
                Component.allNames_eq_of_outline_eq hxy] at hnames
              exact Or.inr (List.append_cancel_left hnames)
          rw [List.map_cons, List.map_cons, hxy, hlinks, ih htail h]

end Fingerprint

namespace Tree

/-- The names of all components in pre-order, each sheet before its items. -/
def names (t : Tree) : List String :=
  t.components.flatMap Component.allNames

/-- No name has a `>` that is followed by the character after a name in its place. -/
def Legible (t : Tree) : Prop :=
  ∀ c ∈ t.components, c.Legible '\x7b'

theorem names_eq_of_outline_eq {t u : Tree} (h : t.outline = u.outline) : t.names = u.names := by
  have hfst : t.components.map Component.outline = u.components.map Component.outline := by
    rw [← map_fst_outline, ← map_fst_outline, h]
  exact Lists.flatMap_eq_of_map_eq hfst fun _ _ _ hxy =>
    Component.allNames_eq_of_outline_eq hxy

/-- A description tells the structure of a tree as far as it tells the names. -/
theorem description_tells_outline {t u : Tree} (h : t.description = u.description) :
    (t.outline = u.outline ↔ t.names = u.names) ∧
      (t.Legible → u.Legible → t.outline = u.outline) := by
  rw [description, description, Fingerprint.pages_eq_flatMap, Fingerprint.pages_eq_flatMap] at h
  have h := String.ofList_inj.1 h
  have hnames : ∀ v : Tree, ((v.pages.rows 0).flatMap fun x => x.1.allNames) = v.names := by
    intro v
    rw [names, components, ← Branches.map_fst_rows 0, List.flatMap_map]
  have hlegible : ∀ v : Tree, v.Legible → ∀ x ∈ v.pages.rows 0, x.1.Legible '\x7b' := by
    intro v hv x hx
    apply hv
    rw [components, ← Branches.map_fst_rows 0]
    exact List.mem_map_of_mem hx
  refine ⟨⟨names_eq_of_outline_eq, ?_⟩, ?_⟩
  · intro hsame
    rw [outline_eq_rows, outline_eq_rows]
    exact Fingerprint.rows_inj (Or.inr (by rw [hnames, hnames, hsame])) h
  · intro ht hu
    rw [outline_eq_rows, outline_eq_rows]
    exact Fingerprint.rows_inj (Or.inl ⟨hlegible t ht, hlegible u hu⟩) h

theorem description_tells_outline_of_text :
    (new (.ofText "a>b" "first")).description = (new (.ofText "a>b" "second")).description ∧
      (new (.ofText "a>b" "first")).outline = (new (.ofText "a>b" "second")).outline := by
  have same : (new (.ofText "a>b" "first")).description =
      (new (.ofText "a>b" "second")).description := rfl
  have legible : ∀ s : String, (new (.ofText "a>b" s)).Legible := by
    intro s c hc
    rw [List.mem_singleton.1 hc]
    exact ⟨(by decide : ¬ ['>', '\x7b'] <:+: "a>b".toList), nofun⟩
  exact ⟨same, (description_tells_outline same).2 (legible "first") (legible "second")⟩

/-- The text of a script with the two pages `a` and `b`. -/
def twoPagesText : String :=
  "\x7b\"title\": \"T\", \"pages\": [\x7b\"component\": \x7b\"type\": \"text\", " ++
    "\"name\": \"a\", \"text\": \"\"\x7d\x7d, \x7b\"component\": \x7b\"type\": \"text\", " ++
    "\"name\": \"b\", \"text\": \"\"\x7d\x7d]\x7d"

/-- The text of a script with one page whose name reads like the description of two. -/
def onePageText : String :=
  "\x7b\"title\": \"T\", \"pages\": [\x7b\"component\": \x7b\"type\": \"text\", \"name\": " ++
    "\"a>\x7b0:1,\x7d;text<b\", \"text\": \"\"\x7d\x7d]\x7d"

/-- Not every two scripts of one description have the same structure. -/
theorem description_collides : ¬ ∀ (x y : String) (s t : Script), Source.script x = .ok s →
    Source.script y = .ok t → s.tree.description = t.tree.description →
      s.tree.outline = t.tree.outline := by
  intro h
  have hpair : ∃ s t, Source.script twoPagesText = .ok s ∧ Source.script onePageText = .ok t ∧
      s.tree.description = t.tree.description ∧ s.tree.size ≠ t.tree.size := by
    have hone : ((Source.script twoPagesText).toOption.any fun s =>
        (Source.script onePageText).toOption.any fun t =>
          s.tree.description = t.tree.description && s.tree.size ≠ t.tree.size) = true := by
      decide +kernel
    cases hs : Source.script twoPagesText with
    | error f =>
        rw [hs] at hone
        cases hone
    | ok s =>
        cases ht : Source.script onePageText with
        | error f =>
            rw [hs, ht] at hone
            cases hone
        | ok t =>
            rw [hs, ht] at hone
            simp only [Except.toOption, Option.any_some, Bool.and_eq_true,
              decide_eq_true_eq] at hone
            exact ⟨s, t, rfl, rfl, hone⟩
  obtain ⟨s, t, hs, ht, hdescription, hsize⟩ := hpair
  apply hsize
  rw [← length_outline, ← length_outline, h _ _ s t hs ht hdescription]

end Tree

end GuidedLab
