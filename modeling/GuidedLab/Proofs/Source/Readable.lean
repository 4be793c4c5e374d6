import GuidedLab.Proofs.Source.Written

/-!
# What can be read

A value in the form of a script is described twice, by the form and by the reading of its draft, and the
two do not ask for quite the same. The form asks of an outcome that it is a whole number from one on; a
draft has room for plain integers of 32 bits. That is the only difference: a draft can be read exactly when
every outcome, at whatever depth, is such an integer (`draft_read_iff`). Components are always read, and
what else they carry is not looked at (`exists_component?`).

Pages nest through their outcomes. `IsOutcomeIn` says of a value that it stands as an outcome somewhere in
pages, and does not mention how pages are read.
-/

namespace GuidedLab

namespace Json.Value

variable {name : String} {v w : Value} {members : List (String × Value)}

/-- The value under a name of an object. -/
def under? (name : String) : Value → Option Value
  | .object members => member? name members
  | _ => none

/-- The items of an array. -/
def listed : Value → List Value
  | .array items => items
  | _ => []

/-- What stands in an array nests less deep. -/
theorem depth_lt_of_mem_listed (h : w ∈ v.listed) : w.depth < v.depth := by
  have key : ∀ items : List Value, w ∈ items → w.depth ≤ depthOfItems items := by
    intro items hw
    induction items with
    | nil => cases hw
    | cons x rest ih =>
        rw [depthOfItems]
        rcases List.mem_cons.1 hw with rfl | hw
        · exact Nat.le_max_left _ _
        · exact Nat.le_trans (ih hw) (Nat.le_max_right _ _)
  cases v with
  | array items =>
      rw [depth]
      have := key items h
      omega
  | _ => cases h

/-- What stands in an object nests less deep. -/
theorem depth_lt_of_under? (h : v.under? name = some w) : w.depth < v.depth := by
  cases v with
  | object members =>
      rw [depth]
      have := depth_le_of_member? h
      omega
  | _ => cases h

/-- A statement holds of every value if it holds of each that it holds of all values of less depth. -/
@[elab_as_elim]
theorem induction_depth {motive : Value → Prop}
    (step : ∀ v, (∀ w, w.depth < v.depth → motive w) → motive v) (v : Value) : motive v :=
  (measure depth).wf.induction v step

end Json.Value

namespace Source

open Json (Value)

variable {name kind : String} {v : Value} {vs : List Value} {members : Schema.Members}

/-! ### Members -/

/-- A form that admits texts only. -/
def Schema.OfTexts (form : Value → Bool) : Prop :=
  ∀ v, form v = true → ∃ s, v = .string s

theorem Schema.ofTexts_isText : OfTexts isText
  | .string s, _ => ⟨s, rfl⟩

theorem Schema.ofTexts_isFilled : OfTexts isFilled
  | .string s, _ => ⟨s, rfl⟩

theorem Schema.ofTexts_isName : OfTexts isName
  | .string s, _ => ⟨s, rfl⟩

theorem Schema.ofTexts_isOneOf (texts : List String) : OfTexts (isOneOf texts)
  | .string s, _ => ⟨s, rfl⟩

/-- A form that admits objects only. -/
def Schema.OfObjects (form : Value → Bool) : Prop :=
  ∀ v, form v = true → ∃ members, v = .object members

theorem Schema.ofObjects_isComponent : OfObjects isComponent
  | .object members, _ => ⟨members, rfl⟩

theorem Schema.ofObjects_isPage : OfObjects isPage
  | .object members, _ => ⟨members, rfl⟩

theorem Schema.ofObjects_isBranch : OfObjects isBranch
  | .object members, _ => ⟨members, rfl⟩

theorem Schema.ofObjects_isScript : OfObjects isScript
  | .object members, _ => ⟨members, rfl⟩

/-- A form that admits arrays only. -/
def Schema.OfArrays (form : Value → Bool) : Prop :=
  ∀ v, form v = true → ∃ items, v = .array items

theorem Schema.ofArrays_isComponentArray : OfArrays isComponentArray
  | .array items, _ => ⟨items, rfl⟩

theorem Schema.ofArrays_isPages : OfArrays isPages
  | .array pages, _ => ⟨pages, rfl⟩

theorem Schema.ofArrays_isBranchArray : OfArrays isBranchArray
  | .array branches, _ => ⟨branches, rfl⟩

theorem Schema.requires_iff {form : Value → Bool} :
    requires name form members = true ↔ ∃ v, Value.member? name members = some v ∧ form v = true := by
  rw [requires, Option.any_eq_true]

theorem Schema.allows_iff {form : Value → Bool} :
    allows name form members = true ↔ ∀ v, Value.member? name members = some v → form v = true := by
  rw [allows, Option.all_eq_true]

/-- What walks over members until it comes to a name is what is made of the value under the name. -/
theorem walk_eq {α : Type} {f : Schema.Members → α} {g : Value → α} (name : String)
    (cons : ∀ k v rest, f ((k, v) :: rest) = if k = name then g v else f rest) :
    f members = ((Value.member? name members).map g).getD (f []) := by
  induction members with
  | nil => rfl
  | cons m rest ih =>
      rw [cons, Value.member?_cons, ih]
      split <;> rfl

/-- A form that walks over all members and is asked of those of a name is the form of the value under it. -/
theorem form_of_walk {f : Schema.Members → Bool} {g : Value → Bool} (name : String)
    (cons : ∀ k v rest, f ((k, v) :: rest) = ((k ≠ name || g v) && f rest)) (form : f members = true)
    (h : Value.member? name members = some v) : g v = true := by
  induction members with
  | nil => cases h
  | cons m rest ih =>
      rw [cons, Bool.and_eq_true] at form
      rw [Value.member?_cons] at h
      split at h
      · next hk =>
          cases h
          simpa [hk] using form.1
      · exact ih form.2 h

/-- What reads values one by one reads all of them or nothing. -/
theorem exists_each_iff {α β : Type} {f : List Value → Option β} {g : Value → Option α} {z : β}
    {c : α → β → β} (nil : f [] = some z)
    (cons : ∀ v rest, f (v :: rest) = (g v).bind fun x => (f rest).bind fun y => some (c x y)) :
    (∃ y, f vs = some y) ↔ ∀ v ∈ vs, ∃ x, g v = some x := by
  induction vs with
  | nil => exact ⟨fun _ => nofun, fun _ => ⟨z, nil⟩⟩
  | cons v rest ih =>
      rw [List.forall_mem_cons, ← ih, cons]
      constructor
      · rintro ⟨y, h⟩
        obtain ⟨x, hx, h⟩ := Option.bind_eq_some_iff.1 h
        obtain ⟨others, ho, -⟩ := Option.bind_eq_some_iff.1 h
        exact ⟨⟨x, hx⟩, others, ho⟩
      · rintro ⟨⟨x, hx⟩, others, ho⟩
        exact ⟨c x others, by rw [hx, Option.bind_some, ho, Option.bind_some]⟩

/-- A form that is asked of values one by one is asked of each. -/
theorem form_each_iff {f : List Value → Bool} {g : Value → Bool} (nil : f [] = true)
    (cons : ∀ v rest, f (v :: rest) = (g v && f rest)) : f vs = true ↔ ∀ v ∈ vs, g v = true := by
  induction vs with
  | nil => exact ⟨fun _ => nofun, fun _ => nil⟩
  | cons v rest ih => rw [cons, Bool.and_eq_true, List.forall_mem_cons, ih]

/-- A text that the form requires is read. -/
theorem exists_text? {form : Value → Bool} (texts : Schema.OfTexts form)
    (h : Schema.requires name form members = true) :
    ∃ s, text? name members = some s ∧ form (.string s) = true := by
  obtain ⟨v, hv, hform⟩ := Schema.requires_iff.1 h
  obtain ⟨s, rfl⟩ := texts v hform
  exact ⟨s, by rw [text?, hv], hform⟩

/-- A text that the form allows is read if it is there. -/
theorem exists_optionalText? {form : Value → Bool} (texts : Schema.OfTexts form)
    (h : Schema.allows name form members = true) :
    ∃ t, optionalText? name members = some t ∧ ∀ s, t = some s → form (.string s) = true := by
  rw [Schema.allows_iff] at h
  rw [optionalText?]
  cases hv : Value.member? name members with
  | none => exact ⟨none, rfl, nofun⟩
  | some v =>
      obtain ⟨s, rfl⟩ := texts v (h v hv)
      exact ⟨some s, rfl, fun _ hs => Option.some.inj hs ▸ h _ hv⟩

theorem exists_truth? (h : Schema.allows name Schema.isTruth members = true) :
    ∃ b, truth? name members = some b := by
  rw [Schema.allows_iff] at h
  rw [truth?]
  cases hv : Value.member? name members with
  | none => exact ⟨false, rfl⟩
  | some v =>
      cases v with
      | bool b => exact ⟨b, rfl⟩
      | _ => cases h _ hv

/-! ### Components -/

theorem exists_sensor? {s : String} (h : Schema.isOneOf (Sensor.all.map Sensor.name) (.string s) = true) :
    ∃ sensor, Sensor.ofName? s = some sensor := by
  have hmem : s ∈ Sensor.all.map Sensor.name := List.contains_iff_mem.1 h
  obtain ⟨sensor, -, rfl⟩ := List.mem_map.1 hmem
  exact ⟨sensor, Sensor.ofName?_name sensor⟩

/-- The layout of a sheet is read if it is one of those that the form allows. -/
theorem exists_orientation?
    (h : Schema.allows "orientation" (Schema.isOneOf Schema.orientations) members = true) :
    ∃ o, orientation? members = some o := by
  obtain ⟨t, ht, hform⟩ := exists_optionalText? (Schema.ofTexts_isOneOf _) h
  rw [orientation?, ht, Option.bind_some]
  cases t with
  | none => exact ⟨.vertical, rfl⟩
  | some s =>
      have hmem : s ∈ Schema.orientations := List.contains_iff_mem.1 (hform s rfl)
      simp only [Schema.orientations, List.mem_cons, List.not_mem_nil, or_false] at hmem
      rcases hmem with rfl | rfl
      · exact ⟨.vertical, rfl⟩
      · exact ⟨.horizontal, rfl⟩

/-- An element is read if its members are what its kind asks for. -/
theorem exists_element? (form : Schema.fits kind members = true) (leaf : kind ≠ "sheet") :
    ∃ e, element? kind members = some e := by
  rw [Schema.fits] at form
  split at form
  · next hkind =>
      obtain ⟨s, hs, -⟩ := exists_text? Schema.ofTexts_isText form
      have hmem : kind ∈ Schema.textKinds := List.contains_iff_mem.1 hkind
      simp only [Schema.textKinds, List.mem_cons, List.not_mem_nil, or_false] at hmem
      rcases hmem with rfl | rfl | rfl | rfl <;> simp [element?, hs]
  split at form
  · next hkind =>
      subst hkind
      rw [Bool.and_eq_true] at form
      obtain ⟨s, hs, -⟩ := exists_text? Schema.ofTexts_isText form.1
      obtain ⟨b, hb⟩ := exists_truth? form.2
      simp [element?, hs, hb]
  split at form
  · next hkind =>
      subst hkind
      rw [Bool.and_eq_true] at form
      obtain ⟨s, hs, hsensor⟩ := exists_text? (Schema.ofTexts_isOneOf _) form.1
      obtain ⟨sensor, hsensor⟩ := exists_sensor? hsensor
      obtain ⟨t, ht, -⟩ := exists_optionalText? Schema.ofTexts_isText form.2
      simp [element?, hs, hsensor, ht]
  split at form
  · next hkind =>
      subst hkind
      rw [Bool.and_eq_true, Bool.and_eq_true, Bool.and_eq_true] at form
      obtain ⟨⟨⟨htitle, hx⟩, hy⟩, hexperiment⟩ := form
      obtain ⟨t, ht, -⟩ := exists_optionalText? Schema.ofTexts_isText htitle
      obtain ⟨x, hx, -⟩ := exists_text? Schema.ofTexts_isFilled hx
      obtain ⟨y, hy, -⟩ := exists_text? Schema.ofTexts_isFilled hy
      obtain ⟨e, he, -⟩ := exists_optionalText? Schema.ofTexts_isName hexperiment
      simp [element?, graph?, ht, hx, hy, he]
  -- a sheet is no element, so what is left is an export
  have hkind : kind = "export" := of_decide_eq_true form
  subst hkind
  exact ⟨.export, rfl⟩

/-- Items are components if the component is in form, so a component in form is read. -/
theorem exists_component? {v : Value} (form : Schema.isComponent v = true) :
    ∃ c, component? v = some c := by
  induction v using Value.induction_depth with
  | step v ih =>
      obtain ⟨members, rfl⟩ := Schema.ofObjects_isComponent v form
      rw [Schema.isComponent, Bool.and_eq_true, Option.any_eq_true] at form
      obtain ⟨hname, kind, hkind, form⟩ := form
      rw [Bool.and_eq_true] at form
      obtain ⟨hfits, hitems⟩ := form
      obtain ⟨name, hread, -⟩ := exists_text? Schema.ofTexts_isName hname
      rw [component?, hkind, hread]
      by_cases hsheet : kind = "sheet"
      · subst hsheet
        obtain ⟨hrequires, horientation⟩ := Bool.and_eq_true_iff.1 (show (_ && _) = true from hfits)
        obtain ⟨o, ho⟩ := exists_orientation? horientation
        obtain ⟨w, hw, -⟩ := Schema.requires_iff.1 hrequires
        have harray := form_of_walk "items" (fun _ _ _ => rfl) hitems hw
        obtain ⟨items, rfl⟩ := Schema.ofArrays_isComponentArray w harray
        obtain ⟨cs, hcs⟩ : ∃ cs, components? items = some cs := by
          rw [exists_each_iff (f := components?) rfl fun _ _ => by rw [components?]; rfl]
          intro item hitem
          have hdepth : item.depth < (Value.object members).depth :=
            Nat.lt_trans (Value.depth_lt_of_mem_listed (v := .array items) hitem)
              (Value.depth_lt_of_under? hw)
          exact ih item hdepth ((form_each_iff rfl fun _ _ => rfl).1 harray item hitem)
        have hread : items? members = some cs := by
          rw [walk_eq (f := items?) "items" (fun _ _ _ => by rw [items?]), hw]
          exact hcs
        exact ⟨.sheet name o cs, by simp [ho, hread]⟩
      · obtain ⟨e, he⟩ := exists_element? hfits hsheet
        exact ⟨.leaf name e, by simp [hsheet, he]⟩

/-! ### Pages -/

/-- The values of the branches that a page is written with. -/
def branchValues (page : Value) : List Value :=
  ((page.under? "branches").map Value.listed).getD []

/-- A value stands in pages as the outcome of a branch, at any depth. -/
inductive IsOutcomeIn (o : Value) : Value → Prop where
  | here {pages page branch : Value} (onPage : page ∈ pages.listed)
      (onBranch : branch ∈ branchValues page) (h : branch.under? "outcome" = some o) :
      IsOutcomeIn o pages
  | deeper {pages page branch inner : Value} (onPage : page ∈ pages.listed)
      (onBranch : branch ∈ branchValues page) (h : branch.under? "pages" = some inner)
      (within : IsOutcomeIn o inner) : IsOutcomeIn o pages

/-- A value stands somewhere in a script as the outcome of a branch. -/
def IsOutcomeOf (o script : Value) : Prop :=
  ∃ pages, script.under? "pages" = some pages ∧ IsOutcomeIn o pages

/-- A plain integer of 32 bits, from one on. -/
def IsBranchNumber (o : Value) : Prop :=
  ∃ n : Int, o = .number (.integer n) ∧ 1 ≤ n ∧ n < UInt32.size

theorem depth_lt_of_branchValues {page branch : Value} (h : branch ∈ branchValues page) :
    branch.depth < page.depth := by
  rw [branchValues] at h
  cases hv : page.under? "branches" with
  | none =>
      rw [hv] at h
      cases h
  | some v =>
      rw [hv] at h
      exact Nat.lt_trans (Value.depth_lt_of_mem_listed h) (Value.depth_lt_of_under? hv)

theorem isOutcomeIn_iff {o pages : Value} :
    IsOutcomeIn o pages ↔ ∃ page ∈ pages.listed, ∃ branch ∈ branchValues page,
      branch.under? "outcome" = some o ∨
        ∃ inner, branch.under? "pages" = some inner ∧ IsOutcomeIn o inner := by
  constructor
  · rintro (⟨onPage, onBranch, h⟩ | ⟨onPage, onBranch, h, within⟩)
    · exact ⟨_, onPage, _, onBranch, Or.inl h⟩
    · exact ⟨_, onPage, _, onBranch, Or.inr ⟨_, h, within⟩⟩
  · rintro ⟨page, onPage, branch, onBranch, h | ⟨inner, h, within⟩⟩
    · exact .here onPage onBranch h
    · exact .deeper onPage onBranch h within

/-- A branch is read from an outcome in form exactly when it is a plain integer that fits. -/
theorem exists_branch?_iff (form : Schema.requires name Schema.isOutcome members = true) :
    (∃ b, branch? name members = some b) ↔
      ∀ o, Value.member? name members = some o → IsBranchNumber o := by
  obtain ⟨o, ho, hform⟩ := Schema.requires_iff.1 form
  rw [ho]
  simp only [Option.some.injEq, forall_eq', IsBranchNumber]
  cases o with
  | number number =>
      cases number with
      | integer n =>
          have hone : 1 ≤ n := of_decide_eq_true hform
          have hread : branch? name members =
              if 0 ≤ n ∧ n < UInt32.size then some (UInt32.ofNat n.toNat) else none := by
            rw [branch?, ho]
          rw [hread]
          by_cases hn : n < UInt32.size
          · exact ⟨fun _ => ⟨n, rfl, hone, hn⟩, fun _ => ⟨_, if_pos ⟨by omega, hn⟩⟩⟩
          · rw [if_neg fun hrange => hn hrange.2]
            constructor
            · rintro ⟨b, ⟨⟩⟩
            · rintro ⟨_, ⟨⟩, -, hlt⟩
              exact absurd hlt hn
      | real negative x =>
          rw [branch?, ho]
          constructor
          · rintro ⟨_, ⟨⟩⟩
          · rintro ⟨_, ⟨⟩, -⟩
  | _ => cases hform

/-- A page in form is read exactly when its branches are. -/
theorem exists_page?_iff {page : Value} (form : Schema.isPage page = true) :
    (∃ p, page? page = some p) ↔ ∀ branch ∈ branchValues page, ∃ out, outcome? branch = some out := by
  obtain ⟨members, rfl⟩ := Schema.ofObjects_isPage page form
  rw [Schema.isPage, Bool.and_eq_true, Bool.and_eq_true] at form
  obtain ⟨⟨-, hcomponent⟩, hbranches⟩ := form
  obtain ⟨w, hw, hform⟩ := Schema.requires_iff.1 hcomponent
  obtain ⟨c, hc⟩ := exists_component? hform
  have houtcomes : outcomes? members =
      ((Value.member? "branches" members).map outcomeArray?).getD (some .nil) :=
    walk_eq "branches" fun _ _ _ => by rw [outcomes?]
  have hread : (∃ p, page? (.object members) = some p) ↔ ∃ os, outcomes? members = some os := by
    rw [page?, hw, Option.bind_some, hc]
    cases outcomes? members with
    | none => exact iff_of_false (by rintro ⟨_, ⟨⟩⟩) (by rintro ⟨_, ⟨⟩⟩)
    | some os => exact ⟨fun _ => ⟨os, rfl⟩, fun _ => ⟨(c, os), rfl⟩⟩
  rw [hread, houtcomes, branchValues, Value.under?]
  cases hv : Value.member? "branches" members with
  | none => exact iff_of_true ⟨.nil, rfl⟩ (List.forall_mem_nil _)
  | some v =>
      have harray := form_of_walk "branches" (fun _ _ _ => rfl) hbranches hv
      obtain ⟨branches, rfl⟩ := Schema.ofArrays_isBranchArray v harray
      exact exists_each_iff (f := outcomeList?) rfl fun _ _ => by rw [outcomeList?]; rfl

/-- A branch in form is read exactly when its outcome is a branch number and its pages are read. -/
theorem exists_outcome?_iff {branch : Value} (form : Schema.isBranch branch = true) :
    (∃ out, outcome? branch = some out) ↔
      (∀ o, branch.under? "outcome" = some o → IsBranchNumber o) ∧
        ∀ inner, branch.under? "pages" = some inner → ∃ pages, pages? inner = some pages := by
  obtain ⟨members, rfl⟩ := Schema.ofObjects_isBranch branch form
  rw [Schema.isBranch, Bool.and_eq_true, Bool.and_eq_true, Bool.and_eq_true] at form
  obtain ⟨⟨⟨-, houtcome⟩, hhas⟩, -⟩ := form
  have hpages : pagesUnder? members = ((Value.member? "pages" members).map pages?).getD none :=
    walk_eq "pages" fun _ _ _ => by rw [pagesUnder?]
  obtain ⟨inner, hinner⟩ : ∃ inner, Value.member? "pages" members = some inner := by
    apply Option.ne_none_iff_exists'.1
    rw [ne_eq, Value.member?_eq_none_iff, Classical.not_not]
    exact Value.hasMember_iff.1 hhas
  rw [hinner, Option.map_some, Option.getD_some] at hpages
  simp only [Value.under?, hinner, Option.some.injEq, forall_eq', ← exists_branch?_iff houtcome]
  rw [outcome?, hpages]
  constructor
  · rintro ⟨out, h⟩
    obtain ⟨b, hb, h⟩ := Option.bind_eq_some_iff.1 h
    obtain ⟨pages, hp, -⟩ := Option.bind_eq_some_iff.1 h
    exact ⟨⟨b, hb⟩, pages, hp⟩
  · rintro ⟨⟨b, hb⟩, pages, hp⟩
    exact ⟨(b, pages), by rw [hb, hp]; rfl⟩

/-- The pages of a branch in form are in form. -/
theorem isPages_of_isBranch {branch inner : Value} (form : Schema.isBranch branch = true)
    (h : branch.under? "pages" = some inner) : Schema.isPages inner = true := by
  obtain ⟨members, rfl⟩ := Schema.ofObjects_isBranch branch form
  rw [Schema.isBranch, Bool.and_eq_true] at form
  exact form_of_walk "pages" (fun _ _ _ => rfl) form.2 h

/-- The branches of a page in form are in form. -/
theorem isBranch_of_isPage {page branch : Value} (form : Schema.isPage page = true)
    (h : branch ∈ branchValues page) : Schema.isBranch branch = true := by
  obtain ⟨members, rfl⟩ := Schema.ofObjects_isPage page form
  rw [Schema.isPage, Bool.and_eq_true] at form
  rw [branchValues, Value.under?] at h
  cases hv : Value.member? "branches" members with
  | none =>
      rw [hv] at h
      cases h
  | some v =>
      rw [hv] at h
      have harray := form_of_walk "branches" (fun _ _ _ => rfl) form.2 hv
      obtain ⟨branches, rfl⟩ := Schema.ofArrays_isBranchArray v harray
      exact (form_each_iff (f := Schema.areBranches) rfl fun _ _ => rfl).1 harray branch h

/-- Pages in form are read exactly when every outcome in them is a branch number. -/
theorem exists_pages?_iff {pages : Value} (form : Schema.isPages pages = true) :
    (∃ ps, pages? pages = some ps) ↔ ∀ o, IsOutcomeIn o pages → IsBranchNumber o := by
  induction pages using Value.induction_depth with
  | step pages ih =>
      obtain ⟨vs, rfl⟩ := Schema.ofArrays_isPages pages form
      rw [Schema.isPages, Bool.and_eq_true] at form
      have hpage := (form_each_iff (f := Schema.arePages) rfl fun _ _ => rfl).1 form.2
      -- the pages of a branch nest less deep than the pages that it stands in
      have hpages : ∀ page ∈ vs, ∀ branch ∈ branchValues page, ∀ inner,
          branch.under? "pages" = some inner →
            ((∃ ps, pages? inner = some ps) ↔ ∀ o, IsOutcomeIn o inner → IsBranchNumber o) := by
        intro page onPage branch onBranch inner h
        have hdepth : inner.depth < (Value.array vs).depth :=
          Nat.lt_trans (Value.depth_lt_of_under? h) (Nat.lt_trans (depth_lt_of_branchValues onBranch)
            (Value.depth_lt_of_mem_listed onPage))
        exact ih inner hdepth (isPages_of_isBranch (isBranch_of_isPage (hpage page onPage) onBranch) h)
      have hread : (∃ ps, pages? (.array vs) = some ps) ↔ ∀ page ∈ vs, ∃ p, page? page = some p :=
        exists_each_iff (f := pageList?) rfl fun _ _ => by rw [pageList?]; rfl
      rw [hread]
      constructor
      · intro h o ho
        obtain ⟨page, onPage, branch, onBranch, hout⟩ := isOutcomeIn_iff.1 ho
        have hbranch := (exists_page?_iff (hpage page onPage)).1 (h page onPage) branch onBranch
        obtain ⟨hnumber, hinner⟩ :=
          (exists_outcome?_iff (isBranch_of_isPage (hpage page onPage) onBranch)).1 hbranch
        rcases hout with hout | ⟨inner, hunder, within⟩
        · exact hnumber o hout
        · exact (hpages page onPage branch onBranch inner hunder).1 (hinner inner hunder) o within
      · intro h page onPage
        rw [exists_page?_iff (hpage page onPage)]
        intro branch onBranch
        rw [exists_outcome?_iff (isBranch_of_isPage (hpage page onPage) onBranch)]
        constructor
        · exact fun o ho => h o (.here onPage onBranch ho)
        · intro inner hunder
          rw [hpages page onPage branch onBranch inner hunder]
          exact fun o ho => h o (.deeper onPage onBranch hunder ho)

/-- A draft is read from a value in the form of a script exactly when every outcome is a branch number. -/
theorem exists_ofJson?_iff {v : Value} (form : Schema.isScript v = true) :
    (∃ draft, Draft.ofJson? v = some draft) ↔ ∀ o, IsOutcomeOf o v → IsBranchNumber o := by
  obtain ⟨members, rfl⟩ := Schema.ofObjects_isScript v form
  rw [Schema.isScript, Bool.and_eq_true, Bool.and_eq_true] at form
  obtain ⟨⟨-, htitle⟩, hpages⟩ := form
  obtain ⟨title, ht, -⟩ := exists_text? Schema.ofTexts_isFilled htitle
  obtain ⟨pages, hp, hform⟩ := Schema.requires_iff.1 hpages
  have houtcome : ∀ o, IsOutcomeOf o (.object members) ↔ IsOutcomeIn o pages := by
    intro o
    rw [IsOutcomeOf, Value.under?, hp]
    simp only [Option.some.injEq, exists_eq_left']
  simp only [houtcome]
  rw [← exists_pages?_iff hform, Draft.ofJson?, ht, hp, Option.bind_some]
  cases pages? pages with
  | none => exact iff_of_false (by rintro ⟨_, ⟨⟩⟩) (by rintro ⟨_, ⟨⟩⟩)
  | some ps => exact ⟨fun _ => ⟨ps, rfl⟩, fun _ => ⟨⟨title, ps⟩, rfl⟩⟩

/-- The reading of a draft refuses a value in the form of a script exactly when an outcome in it, at any
depth, is no plain integer of 32 bits from one on. In all other cases a draft is read, whatever else
components carry. -/
theorem draft_read_iff {v : Value} (form : Schema.isScript v = true) :
    (draftOf v = .error ⟨["deserialize script"], .json⟩ ↔ ∃ o, IsOutcomeOf o v ∧ ¬ IsBranchNumber o) ∧
    ((∃ draft, draftOf v = .ok draft) ↔ ∀ o, IsOutcomeOf o v → IsBranchNumber o) := by
  have hread := exists_ofJson?_iff form
  rw [draftOf, if_pos form]
  cases hdraft : Draft.ofJson? v with
  | none =>
      have hnot : ¬ ∀ o, IsOutcomeOf o v → IsBranchNumber o := by
        rw [← hread, hdraft]
        rintro ⟨draft, ⟨⟩⟩
      obtain ⟨o, ho⟩ := Classical.not_forall.1 hnot
      refine ⟨iff_of_true rfl ⟨o, Classical.not_imp.1 ho⟩, iff_of_false ?_ hnot⟩
      rintro ⟨draft, ⟨⟩⟩
  | some draft =>
      have hall := hread.1 ⟨draft, hdraft⟩
      refine ⟨iff_of_false (by rintro ⟨⟩) ?_, iff_of_true ⟨draft, rfl⟩ hall⟩
      rintro ⟨o, ho, hnot⟩
      exact hnot (hall o ho)

/-- A script with a checkbox that carries more than its kind asks for and may be left with an outcome. -/
def forkedValue (outcome : Json.Number) : Value :=
  .object [("title", .string "T"), ("pages", .array [.object [
    ("component", .object [("type", .string "checkbox_question"), ("name", .string "q"),
      ("text", .string "?"), ("optional", .null), ("items", .number (.integer 3))]),
    ("branches", .array [.object [("outcome", .number outcome), ("pages", .array [.object [
      ("component", .object [("type", .string "export"), ("name", .string "end")])]])]])]])]

theorem isOutcomeOf_forkedValue {o : Value} {outcome : Json.Number} :
    IsOutcomeOf o (forkedValue outcome) ↔ o = .number outcome := by
  constructor
  · rintro ⟨_, ⟨⟩, h⟩
    obtain ⟨page, onPage, branch, onBranch, h⟩ := isOutcomeIn_iff.1 h
    cases List.mem_singleton.1 onPage
    cases List.mem_singleton.1 onBranch
    rcases h with ⟨⟨⟩⟩ | ⟨_, ⟨⟩, within⟩
    · rfl
    · -- the page of the outcome has no branches
      obtain ⟨page, onPage, branch, onBranch, -⟩ := isOutcomeIn_iff.1 within
      cases List.mem_singleton.1 onPage
      cases onBranch
  · rintro rfl
    exact ⟨_, rfl, .here List.mem_cons_self List.mem_cons_self rfl⟩

/-- The greatest number of 32 bits is read. One more is not, and neither is one with a fraction. -/
theorem draft_read_forkedValue :
    (∃ draft, draftOf (forkedValue (.integer 4294967295)) = .ok draft) ∧
    draftOf (forkedValue (.integer 4294967296)) = .error ⟨["deserialize script"], .json⟩ ∧
    draftOf (forkedValue (.real false 1)) = .error ⟨["deserialize script"], .json⟩ := by
  refine ⟨?_, ?_, ?_⟩
  · rw [(draft_read_iff (by decide +kernel)).2]
    intro o ho
    exact ⟨_, isOutcomeOf_forkedValue.1 ho, by decide, by decide⟩
  · rw [(draft_read_iff (by decide +kernel)).1]
    refine ⟨_, isOutcomeOf_forkedValue.2 rfl, ?_⟩
    rintro ⟨_, ⟨⟩, -, hlt⟩
    exact absurd hlt (by decide)
  · rw [(draft_read_iff (by decide +kernel)).1]
    refine ⟨_, isOutcomeOf_forkedValue.2 rfl, ?_⟩
    rintro ⟨_, ⟨⟩, -⟩

end Source

end GuidedLab
