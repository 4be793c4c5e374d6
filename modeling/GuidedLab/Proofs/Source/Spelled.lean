import Mathlib.Data.List.Forall2
import GuidedLab.Proofs.Source.Readable

/-!
# What a value spells

`Spells v draft` says which script a JSON value spells, and does not mention how it is read. Each part
of a draft stands in the value under the name that the format gives it: the texts of a component under
the names that belong to its kind, the items of a sheet and the pages of a script in the order of their
arrays, the outcome of a branch beside its pages. What may be left out has a default: a question is not
optional, a sheet is vertical, an experiment has an empty description, a page has no branches. A graph
may be left without a title and without an experiment.

A draft is read from a value exactly if the value spells it (`ofJson?_eq_some_iff`). So a value spells one
draft at most, and nothing that belongs to a draft is passed over or added.
-/

namespace GuidedLab.Source

open Json (Value)

/-- The text for the layout of a sheet. -/
def layoutText : Orientation → String
  | .vertical => "vertical"
  | .horizontal => "horizontal"

/-- A value spells an element, as a component of a kind. -/
inductive SpellsElement (v : Value) : String → ElementDraft → Prop where
  | text {s : String} (text : v.under? "text" = some (.string s)) :
      SpellsElement v "text" (.text .normal s)
  | header {s : String} (text : v.under? "text" = some (.string s)) :
      SpellsElement v "header" (.text .header s)
  | question {s : String} (text : v.under? "text" = some (.string s)) :
      SpellsElement v "question" (.question s)
  | checkbox {s : String} (text : v.under? "text" = some (.string s)) :
      SpellsElement v "checkbox_question" (.checkbox s)
  | textQuestion {s : String} {optional : Bool} (text : v.under? "text" = some (.string s))
      (flag : (v.under? "optional").getD (.bool false) = .bool optional) :
      SpellsElement v "text_question" (.textQuestion s optional)
  | experiment {sensor : Sensor} {description : String}
      (device : v.under? "sensor" = some (.string sensor.name))
      (text : (v.under? "description").getD (.string "") = .string description) :
      SpellsElement v "experiment" (.experiment sensor description)
  | graph {g : GraphDraft} (title : v.under? "title" = g.title.map Value.string)
      (xAxis : v.under? "x_axis" = some (.string g.xAxis))
      (yAxis : v.under? "y_axis" = some (.string g.yAxis))
      (experiment : v.under? "experiment" = g.experiment.map Value.string) :
      SpellsElement v "graph" (.graph g)
  | exportPart : SpellsElement v "export" .export

/-- A value spells a component. -/
inductive SpellsComponent : Value → ComponentDraft → Prop where
  | leaf {v : Value} {kind name : String} {element : ElementDraft}
      (type : v.under? "type" = some (.string kind)) (named : v.under? "name" = some (.string name))
      (h : SpellsElement v kind element) : SpellsComponent v (.leaf name element)
  | sheet {v : Value} {name : String} {orientation : Orientation} {vs : List Value}
      {items : List ComponentDraft} (type : v.under? "type" = some (.string "sheet"))
      (named : v.under? "name" = some (.string name))
      (layout : (v.under? "orientation").getD (.string "vertical") = .string (layoutText orientation))
      (under : v.under? "items" = some (.array vs)) (each : List.Forall₂ SpellsComponent vs items) :
      SpellsComponent v (.sheet name orientation items)

mutual

/-- Values spell pages, one after the other. -/
inductive SpellsPages : List Value → Pages → Prop where
  | nil : SpellsPages [] .nil
  | cons {page v : Value} {branches rest : List Value} {component : ComponentDraft}
      {outcomes : Outcomes} {pages : Pages} (onPage : page.under? "component" = some v)
      (h : SpellsComponent v component)
      (under : (page.under? "branches").getD (.array []) = .array branches)
      (after : SpellsOutcomes branches outcomes) (next : SpellsPages rest pages) :
      SpellsPages (page :: rest) (.cons component outcomes pages)

/-- Values spell the outcomes of a page, one after the other. -/
inductive SpellsOutcomes : List Value → Outcomes → Prop where
  | nil : SpellsOutcomes [] .nil
  | cons {branch : Value} {vs rest : List Value} {number : UInt32} {pages : Pages}
      {outcomes : Outcomes}
      (outcome : branch.under? "outcome" = some (.number (.integer number.toNat)))
      (under : branch.under? "pages" = some (.array vs)) (h : SpellsPages vs pages)
      (next : SpellsOutcomes rest outcomes) :
      SpellsOutcomes (branch :: rest) (.cons number pages outcomes)

end

/-- A value spells a script. -/
structure Spells (v : Value) (draft : Draft) : Prop where
  title : v.under? "title" = some (.string draft.title)
  pages : ∃ vs, v.under? "pages" = some (.array vs) ∧ SpellsPages vs draft.pages

variable {name kind : String} {members : Schema.Members}

/-! ### Members -/

theorem text?_eq_some_iff {s : String} :
    text? name members = some s ↔ (Value.object members).under? name = some (.string s) := by
  rw [text?, Value.under?]
  cases Value.member? name members with
  | none => simp
  | some v => cases v <;> simp

theorem kind?_eq_some_iff :
    Schema.kind? members = some kind ↔
      (Value.object members).under? "type" = some (.string kind) := by
  rw [Schema.kind?]
  exact text?_eq_some_iff

theorem optionalText?_eq_some_iff {t : Option String} :
    optionalText? name members = some t ↔
      (Value.object members).under? name = t.map Value.string := by
  rw [optionalText?, Value.under?]
  cases Value.member? name members with
  | none => cases t <;> simp
  | some v => cases v <;> cases t <;> simp

theorem truth?_eq_some_iff {b : Bool} :
    truth? name members = some b ↔
      ((Value.object members).under? name).getD (.bool false) = .bool b := by
  rw [truth?, Value.under?]
  cases Value.member? name members with
  | none => simp
  | some v => cases v <;> simp

theorem description?_eq_some_iff {s : String} :
    (optionalText? name members).map (fun t => t.getD "") = some s ↔
      ((Value.object members).under? name).getD (.string "") = .string s := by
  rw [optionalText?, Value.under?]
  cases Value.member? name members with
  | none => simp
  | some v => cases v <;> simp

theorem orientation?_eq_some_iff {o : Orientation} :
    orientation? members = some o ↔
      ((Value.object members).under? "orientation").getD (.string "vertical") =
        .string (layoutText o) := by
  rw [orientation?, optionalText?, Value.under?]
  cases Value.member? "orientation" members with
  | none => cases o <;> simp [layoutText]
  | some v =>
      cases v with
      | string s =>
          rw [Option.bind_some, Option.getD_some, Value.string.injEq]
          dsimp only
          split
          · next hs => cases o <;> simp [layoutText, hs]
          · next hs =>
              split
              · next hs' => cases o <;> simp [layoutText, hs']
              · next hs' => cases o <;> simp [layoutText, hs, hs']
      | _ => simp

theorem sensor?_eq_some_iff {sensor : Sensor} :
    (text? name members).bind Sensor.ofName? = some sensor ↔
      (Value.object members).under? name = some (.string sensor.name) := by
  rw [← text?_eq_some_iff, Option.bind_eq_some_iff]
  constructor
  · rintro ⟨s, hs, hsensor⟩
    rw [Sensor.ofName?] at hsensor
    have hname := List.find?_some hsensor
    rw [hs, of_decide_eq_true hname]
  · exact fun h => ⟨sensor.name, h, Sensor.ofName?_name sensor⟩

/-- A branch is read exactly if it is the integer that stands under the name. -/
theorem branch?_eq_some_iff {branch : UInt32} :
    branch? name members = some branch ↔
      (Value.object members).under? name = some (.number (.integer branch.toNat)) := by
  rw [branch?, Value.under?]
  have hlt := branch.toNat_lt
  have hsize : UInt32.size = 4294967296 := rfl
  cases Value.member? name members with
  | none => simp
  | some v =>
      cases v with
      | number x =>
          cases x with
          | integer n =>
              rw [Option.some.injEq, Value.number.injEq, Json.Number.integer.injEq]
              dsimp only
              split
              · next hn =>
                  rw [Option.some.injEq, ← UInt32.toNat_inj, UInt32.toNat_ofNat_of_lt' (by omega)]
                  omega
              · next hn =>
                  refine iff_of_false (by rintro ⟨⟩) ?_
                  rintro rfl
                  exact hn (by omega)
          | real negative size => simp
      | _ => simp

/-! ### Components -/

theorem graph?_eq_some_iff {g : GraphDraft} :
    graph? members = some g ↔
      (Value.object members).under? "title" = g.title.map Value.string ∧
        (Value.object members).under? "x_axis" = some (.string g.xAxis) ∧
          (Value.object members).under? "y_axis" = some (.string g.yAxis) ∧
            (Value.object members).under? "experiment" = g.experiment.map Value.string := by
  rw [graph?]
  constructor
  · intro h
    obtain ⟨title, htitle, h⟩ := Option.bind_eq_some_iff.1 h
    obtain ⟨xAxis, hx, h⟩ := Option.bind_eq_some_iff.1 h
    obtain ⟨yAxis, hy, h⟩ := Option.bind_eq_some_iff.1 h
    obtain ⟨experiment, he, h⟩ := Option.bind_eq_some_iff.1 h
    cases h
    exact ⟨optionalText?_eq_some_iff.1 htitle, text?_eq_some_iff.1 hx, text?_eq_some_iff.1 hy,
      optionalText?_eq_some_iff.1 he⟩
  · rintro ⟨htitle, hx, hy, he⟩
    simp [optionalText?_eq_some_iff.2 htitle, text?_eq_some_iff.2 hx, text?_eq_some_iff.2 hy,
      optionalText?_eq_some_iff.2 he]

/-- The members that an element is read from spell it. -/
theorem spellsElement_of_element? {e : ElementDraft} (h : element? kind members = some e) :
    SpellsElement (.object members) kind e := by
  rw [element?] at h
  split at h
  · next hkind =>
      subst hkind
      obtain ⟨s, hs, rfl⟩ := Option.map_eq_some_iff.1 h
      exact .text (text?_eq_some_iff.1 hs)
  split at h
  · next hkind =>
      subst hkind
      obtain ⟨s, hs, rfl⟩ := Option.map_eq_some_iff.1 h
      exact .header (text?_eq_some_iff.1 hs)
  split at h
  · next hkind =>
      subst hkind
      obtain ⟨s, hs, rfl⟩ := Option.map_eq_some_iff.1 h
      exact .question (text?_eq_some_iff.1 hs)
  split at h
  · next hkind =>
      subst hkind
      obtain ⟨s, hs, rfl⟩ := Option.map_eq_some_iff.1 h
      exact .checkbox (text?_eq_some_iff.1 hs)
  split at h
  · next hkind =>
      subst hkind
      obtain ⟨s, hs, h⟩ := Option.bind_eq_some_iff.1 h
      obtain ⟨optional, hoptional, h⟩ := Option.bind_eq_some_iff.1 h
      cases h
      exact .textQuestion (text?_eq_some_iff.1 hs) (truth?_eq_some_iff.1 hoptional)
  split at h
  · next hkind =>
      subst hkind
      obtain ⟨sensor, hsensor, h⟩ := Option.bind_eq_some_iff.1 h
      obtain ⟨description, hdescription, h⟩ := Option.bind_eq_some_iff.1 h
      cases h
      refine .experiment (sensor?_eq_some_iff.1 hsensor) (description?_eq_some_iff.1 ?_)
      rw [hdescription]
      rfl
  split at h
  · next hkind =>
      subst hkind
      obtain ⟨g, hg, rfl⟩ := Option.map_eq_some_iff.1 h
      obtain ⟨htitle, hx, hy, he⟩ := graph?_eq_some_iff.1 hg
      exact .graph htitle hx hy he
  split at h
  · next hkind =>
      subst hkind
      cases h
      exact .exportPart
  · cases h

/-- An element is read exactly from the members that spell it. -/
theorem element?_eq_some_iff {e : ElementDraft} :
    element? kind members = some e ↔ SpellsElement (.object members) kind e := by
  refine ⟨spellsElement_of_element?, fun h => ?_⟩
  cases h with
  | text text | header text | question text | checkbox text =>
      simp [element?, text?_eq_some_iff.2 text]
  | textQuestion text flag =>
      simp [element?, text?_eq_some_iff.2 text, truth?_eq_some_iff.2 flag]
  | experiment device text =>
      obtain ⟨t, ht, rfl⟩ := Option.map_eq_some_iff.1 (description?_eq_some_iff.2 text)
      simp [element?, sensor?_eq_some_iff.2 device, ht]
  | graph title xAxis yAxis experiment =>
      simp [element?, graph?_eq_some_iff.2 ⟨title, xAxis, yAxis, experiment⟩]
  | exportPart => simp [element?]

/-- No element is spelled as a sheet. -/
theorem SpellsElement.ne_sheet {v : Value} {e : ElementDraft} (h : SpellsElement v kind e) :
    kind ≠ "sheet" := by
  cases h <;> decide

/-- Values are read one by one as components. -/
theorem components?_eq_some_iff {vs : List Value} {ds : List ComponentDraft}
    (each : ∀ v ∈ vs, ∀ d, component? v = some d ↔ SpellsComponent v d) :
    components? vs = some ds ↔ List.Forall₂ SpellsComponent vs ds := by
  induction vs generalizing ds with
  | nil => simp [components?, eq_comm]
  | cons v rest ih =>
      rw [List.forall_mem_cons] at each
      rw [components?, List.forall₂_cons_left_iff]
      constructor
      · intro h
        obtain ⟨d, hd, h⟩ := Option.bind_eq_some_iff.1 h
        obtain ⟨others, ho, h⟩ := Option.bind_eq_some_iff.1 h
        cases h
        exact ⟨d, others, (each.1 d).1 hd, (ih each.2).1 ho, rfl⟩
      · rintro ⟨d, others, hd, ho, rfl⟩
        exact Option.bind_eq_some_iff.2 ⟨d, (each.1 d).2 hd,
          Option.bind_eq_some_iff.2 ⟨others, (ih each.2).2 ho, rfl⟩⟩

/-- The items of a sheet are read from an array. -/
theorem items?_eq_some_iff {ds : List ComponentDraft} :
    items? members = some ds ↔
      ∃ vs, (Value.object members).under? "items" = some (.array vs) ∧ components? vs = some ds := by
  rw [walk_eq (f := items?) "items" (fun _ _ _ => by rw [items?]), Value.under?]
  cases Value.member? "items" members with
  | none => simp [items?]
  | some v => cases v <;> simp [componentArray?]

/-- A component is read exactly from the values that spell it, if the items of a sheet are. -/
theorem component?_eq_some_iff_of_items {v : Value} {d : ComponentDraft}
    (each : ∀ vs, v.under? "items" = some (.array vs) → ∀ ds,
      components? vs = some ds ↔ List.Forall₂ SpellsComponent vs ds) :
    component? v = some d ↔ SpellsComponent v d := by
  constructor
  · intro h
    cases v with
    | object members =>
        rw [component?] at h
        obtain ⟨kind, hkind, h⟩ := Option.bind_eq_some_iff.1 h
        obtain ⟨name, hname, h⟩ := Option.bind_eq_some_iff.1 h
        split at h
        · next hsheet =>
            rw [hsheet] at hkind
            obtain ⟨orientation, ho, h⟩ := Option.bind_eq_some_iff.1 h
            obtain ⟨items, hitems, h⟩ := Option.bind_eq_some_iff.1 h
            cases h
            obtain ⟨vs, hvs, hitems⟩ := items?_eq_some_iff.1 hitems
            exact .sheet (kind?_eq_some_iff.1 hkind) (text?_eq_some_iff.1 hname)
              (orientation?_eq_some_iff.1 ho) hvs ((each vs hvs items).1 hitems)
        · obtain ⟨e, he, rfl⟩ := Option.map_eq_some_iff.1 h
          exact .leaf (kind?_eq_some_iff.1 hkind) (text?_eq_some_iff.1 hname)
            (element?_eq_some_iff.1 he)
    | _ => cases h
  · intro h
    cases h with
    | leaf type named h =>
        cases v with
        | object members =>
            rw [component?, kind?_eq_some_iff.2 type, text?_eq_some_iff.2 named]
            simp [h.ne_sheet, element?_eq_some_iff.2 h]
        | _ => cases type
    | sheet type named layout under spelled =>
        cases v with
        | object members =>
            have hitems := items?_eq_some_iff.2 ⟨_, under, (each _ under _).2 spelled⟩
            rw [component?, kind?_eq_some_iff.2 type, text?_eq_some_iff.2 named]
            simp [orientation?_eq_some_iff.2 layout, hitems]
        | _ => cases type

/-- A component is read exactly from the values that spell it. -/
theorem component?_eq_some_iff {v : Value} {d : ComponentDraft} :
    component? v = some d ↔ SpellsComponent v d := by
  induction v using Value.induction_depth generalizing d with
  | step v ih =>
      -- the items of a sheet nest less deep than the sheet
      apply component?_eq_some_iff_of_items
      intro vs hvs ds
      apply components?_eq_some_iff
      intro w hw d
      have hdepth := Value.depth_lt_of_mem_listed (v := .array vs) hw
      exact ih w (Nat.lt_trans hdepth (Value.depth_lt_of_under? hvs))

/-! ### Pages -/

/-- The branches of a page are read from an array, if there is one. -/
theorem outcomes?_eq_some_iff {outcomes : Outcomes} :
    outcomes? members = some outcomes ↔ ∃ branches,
      ((Value.object members).under? "branches").getD (.array []) = .array branches ∧
        outcomeList? branches = some outcomes := by
  rw [walk_eq (f := outcomes?) "branches" (fun _ _ _ => by rw [outcomes?]), Value.under?]
  cases Value.member? "branches" members with
  | none => simp [outcomes?, outcomeList?]
  | some v => cases v <;> simp [outcomeArray?]

theorem page?_eq_some_iff {page : Value} {component : ComponentDraft} {outcomes : Outcomes} :
    page? page = some (component, outcomes) ↔ ∃ v branches,
      page.under? "component" = some v ∧ SpellsComponent v component ∧
        (page.under? "branches").getD (.array []) = .array branches ∧
          outcomeList? branches = some outcomes := by
  cases page with
  | object members =>
      rw [page?]
      constructor
      · intro h
        obtain ⟨c, hc, h⟩ := Option.bind_eq_some_iff.1 h
        obtain ⟨v, hv, hc⟩ := Option.bind_eq_some_iff.1 hc
        obtain ⟨os, hos, h⟩ := Option.bind_eq_some_iff.1 h
        cases h
        obtain ⟨branches, hunder, hbranches⟩ := outcomes?_eq_some_iff.1 hos
        exact ⟨v, branches, hv, component?_eq_some_iff.1 hc, hunder, hbranches⟩
      · rintro ⟨v, branches, hv, hc, hunder, hbranches⟩
        have hv : Value.member? "component" members = some v := hv
        simp [hv, component?_eq_some_iff.2 hc, outcomes?_eq_some_iff.2 ⟨branches, hunder, hbranches⟩]
  | _ =>
      refine iff_of_false (by rintro ⟨⟩) ?_
      rintro ⟨v, branches, ⟨⟩, -⟩

theorem pages?_eq_some_iff {v : Value} {pages : Pages} :
    pages? v = some pages ↔ ∃ vs, v = .array vs ∧ pageList? vs = some pages := by
  cases v <;> simp [pages?]

theorem outcome?_eq_some_iff {branch : Value} {number : UInt32} {pages : Pages} :
    outcome? branch = some (number, pages) ↔
      branch.under? "outcome" = some (.number (.integer number.toNat)) ∧
        ∃ vs, branch.under? "pages" = some (.array vs) ∧ pageList? vs = some pages := by
  cases branch with
  | object members =>
      have hpages : pagesUnder? members = some pages ↔
          ∃ vs, (Value.object members).under? "pages" = some (.array vs) ∧
            pageList? vs = some pages := by
        rw [walk_eq (f := pagesUnder?) "pages" (fun _ _ _ => by rw [pagesUnder?]), Value.under?]
        cases Value.member? "pages" members with
        | none => simp [pagesUnder?]
        | some v => simp [pages?_eq_some_iff]
      rw [← hpages, ← branch?_eq_some_iff, outcome?]
      constructor
      · intro h
        obtain ⟨b, hb, h⟩ := Option.bind_eq_some_iff.1 h
        obtain ⟨ps, hps, h⟩ := Option.bind_eq_some_iff.1 h
        cases h
        exact ⟨hb, hps⟩
      · rintro ⟨hb, hps⟩
        simp [hb, hps]
  | _ =>
      refine iff_of_false (by rintro ⟨⟩) ?_
      rintro ⟨⟨⟩, -⟩

/-- Outcomes are read exactly from the values that spell them, if their pages are. -/
theorem outcomeList?_eq_some_iff {branches : List Value} {outcomes : Outcomes}
    (inner : ∀ branch ∈ branches, ∀ vs, branch.under? "pages" = some (.array vs) →
      ∀ pages, pageList? vs = some pages ↔ SpellsPages vs pages) :
    outcomeList? branches = some outcomes ↔ SpellsOutcomes branches outcomes := by
  induction branches generalizing outcomes with
  | nil =>
      constructor
      · rintro ⟨⟩
        exact .nil
      · rintro ⟨⟩
        rfl
  | cons branch rest ih =>
      rw [List.forall_mem_cons] at inner
      rw [outcomeList?]
      constructor
      · intro h
        obtain ⟨⟨number, pages⟩, hout, h⟩ := Option.bind_eq_some_iff.1 h
        obtain ⟨others, ho, h⟩ := Option.bind_eq_some_iff.1 h
        cases h
        obtain ⟨hnumber, vs, hvs, hpages⟩ := outcome?_eq_some_iff.1 hout
        exact .cons hnumber hvs ((inner.1 vs hvs pages).1 hpages) ((ih inner.2).1 ho)
      · intro h
        cases h with
        | cons hnumber hvs hpages next =>
            have hout := outcome?_eq_some_iff.2 ⟨hnumber, _, hvs, (inner.1 _ hvs _).2 hpages⟩
            simp [hout, (ih inner.2).2 next]

/-- Pages are read exactly from the values that spell them, if the branches of each page are. -/
theorem pageList?_eq_some_iff_of_branches {vs : List Value} {pages : Pages}
    (after : ∀ page ∈ vs, ∀ branches,
      (page.under? "branches").getD (.array []) = .array branches → ∀ outcomes,
        outcomeList? branches = some outcomes ↔ SpellsOutcomes branches outcomes) :
    pageList? vs = some pages ↔ SpellsPages vs pages := by
  induction vs generalizing pages with
  | nil =>
      constructor
      · rintro ⟨⟩
        exact .nil
      · rintro ⟨⟩
        rfl
  | cons page rest ih =>
      rw [List.forall_mem_cons] at after
      rw [pageList?]
      constructor
      · intro h
        obtain ⟨⟨component, outcomes⟩, hpage, h⟩ := Option.bind_eq_some_iff.1 h
        obtain ⟨others, ho, h⟩ := Option.bind_eq_some_iff.1 h
        cases h
        obtain ⟨v, branches, hv, hc, hunder, hbranches⟩ := page?_eq_some_iff.1 hpage
        exact .cons hv hc hunder ((after.1 branches hunder outcomes).1 hbranches)
          ((ih after.2).1 ho)
      · intro h
        cases h with
        | cons onPage hc under hafter next =>
            have hbranches := (after.1 _ under _).2 hafter
            have hpage := page?_eq_some_iff.2 ⟨_, _, onPage, hc, under, hbranches⟩
            simp [hpage, (ih after.2).2 next]

/-- What branches are given for stands deeper in a value than the page. -/
theorem depth_lt_of_branches {page branch inner : Value} {branches : List Value}
    (under : (page.under? "branches").getD (.array []) = .array branches) (onBranch : branch ∈ branches)
    (h : branch.under? "pages" = some inner) : inner.depth < page.depth := by
  have hbranches : page.under? "branches" = some (.array branches) := by
    cases hv : page.under? "branches" with
    | none =>
        rw [hv] at under
        cases under
        cases onBranch
    | some v =>
        rw [hv] at under
        exact congrArg some under
  have hbranch := Value.depth_lt_of_mem_listed (v := .array branches) onBranch
  exact Nat.lt_trans (Value.depth_lt_of_under? h)
    (Nat.lt_trans hbranch (Value.depth_lt_of_under? hbranches))

/-- Pages are read exactly from the values that spell them. -/
theorem pageList?_eq_some_iff {vs : List Value} {pages : Pages} :
    pageList? vs = some pages ↔ SpellsPages vs pages := by
  have key : ∀ v : Value, ∀ vs, v = .array vs → ∀ pages,
      pageList? vs = some pages ↔ SpellsPages vs pages := by
    intro v
    induction v using Value.induction_depth with
    | step v ih =>
        rintro vs rfl pages
        apply pageList?_eq_some_iff_of_branches
        intro page hpage branches hbranches outcomes
        apply outcomeList?_eq_some_iff
        intro branch hbranch ws hws pages
        have hdepth := Nat.lt_trans (depth_lt_of_branches hbranches hbranch hws)
          (Value.depth_lt_of_mem_listed (v := .array vs) hpage)
        exact ih (.array ws) hdepth ws rfl pages
  exact key _ vs rfl pages

/-- A draft is read from a value exactly if the value spells it. -/
theorem ofJson?_eq_some_iff {v : Value} {draft : Draft} :
    Draft.ofJson? v = some draft ↔ Spells v draft := by
  cases v with
  | object members =>
      rw [Draft.ofJson?]
      constructor
      · intro h
        obtain ⟨title, ht, h⟩ := Option.bind_eq_some_iff.1 h
        obtain ⟨pages, hp, h⟩ := Option.bind_eq_some_iff.1 h
        obtain ⟨w, hw, hp⟩ := Option.bind_eq_some_iff.1 hp
        cases h
        obtain ⟨vs, rfl, hvs⟩ := pages?_eq_some_iff.1 hp
        exact ⟨text?_eq_some_iff.1 ht, vs, hw, pageList?_eq_some_iff.1 hvs⟩
      · rintro ⟨ht, vs, hvs, hpages⟩
        have hvs : Value.member? "pages" members = some (.array vs) := hvs
        simp [text?_eq_some_iff.2 ht, hvs, pages?, pageList?_eq_some_iff.2 hpages]
  | _ =>
      refine iff_of_false (by rintro ⟨⟩) ?_
      rintro ⟨⟨⟩, -⟩

/-- A value that a draft is read from spells that draft and no other. -/
theorem spells_iff_of_draftOf {v : Value} {draft other : Draft} (h : draftOf v = .ok draft) :
    Spells v other ↔ other = draft := by
  rw [draftOf] at h
  split at h
  · split at h
    · next hdraft =>
        cases h
        rw [← ofJson?_eq_some_iff, hdraft, Option.some.injEq, eq_comm]
    · cases h
  · cases h

end GuidedLab.Source
