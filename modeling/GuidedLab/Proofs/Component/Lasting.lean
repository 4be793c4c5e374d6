import GuidedLab.Proofs.Lists
import GuidedLab.Proofs.Component.Response
import GuidedLab.Proofs.Component.Built

/-!
# What lasts in a component

What changes in a component while it is worked on are the states, the answers, the recordings and
which questions are optional. `erased` forgets the states and part of every element, and keeps
everything else at every depth. With the answers and recordings forgotten, `withoutProgress` is what
a snapshot does not hold, and with the optional flags forgotten as well, `withoutChanges` is what no
interaction touches (`Responds.withoutChanges_eq`).

What is forgotten is seen part by part, as the `progress` and the `optional?` flag of each part.
Together they give the component back (`eq_of_withoutChanges_eq`).
-/

namespace GuidedLab

namespace Element

/-- The answer of a text question. -/
def answer? : Element → Option String
  | .textQuestion q => some q.answer
  | _ => none

/-- The path of a recorded experiment. -/
def path? : Element → Option RawPath
  | .experiment e => e.path
  | _ => none

/-- Whether a text question is optional. -/
def optional? : Element → Option Bool
  | .textQuestion q => some q.optional
  | _ => none

/-- An element that is neither answered nor recorded. -/
def withoutProgress : Element → Element
  | .textQuestion q => .textQuestion { q with answer := "" }
  | .experiment e => .experiment { e with path := none }
  | e => e

/-- An element that is neither answered nor recorded nor optional. -/
def withoutChanges : Element → Element
  | .textQuestion q => .textQuestion { q with answer := "", optional := false }
  | .experiment e => .experiment { e with path := none }
  | e => e

@[simp] theorem label_withoutChanges (e : Element) : e.withoutChanges.label = e.label := by
  cases e <;> rfl

theorem withoutChanges_withoutProgress (e : Element) :
    e.withoutProgress.withoutChanges = e.withoutChanges := by
  cases e <;> rfl

theorem optional?_withoutProgress (e : Element) : e.withoutProgress.optional? = e.optional? := by
  cases e <;> rfl

theorem eq_of_withoutChanges_eq {e e' : Element} (h : e.withoutChanges = e'.withoutChanges)
    (answers : e.answer? = e'.answer?) (paths : e.path? = e'.path?)
    (flags : e.optional? = e'.optional?) : e = e' := by
  cases e with
  | textQuestion q =>
      cases e' with
      | textQuestion q' =>
          obtain ⟨text, answer, optional, number⟩ := q
          obtain ⟨text', answer', optional', number'⟩ := q'
          cases h
          cases answers
          cases flags
          rfl
      | _ => cases h
  | experiment x =>
      cases e' with
      | experiment x' =>
          obtain ⟨sensor, description, path⟩ := x
          obtain ⟨sensor', description', path'⟩ := x'
          cases h
          cases paths
          rfl
      | _ => cases h
  | _ =>
      cases e' <;> cases h
      rfl

theorem Reacts.withoutChanges_eq {i : Interaction} {e e' : Element} {s : State}
    (h : Reacts i e s e') : e'.withoutChanges = e.withoutChanges := by
  cases h <;> rfl

/-- Only an interaction that says whether a question is optional touches what a snapshot does not hold. -/
theorem Reacts.withoutProgress_eq {i : Interaction} {e e' : Element} {s : State}
    (h : Reacts i e s e') (hi : ∀ flag, i ≠ .optional flag) :
    e'.withoutProgress = e.withoutProgress := by
  cases h with
  | optional flag q => exact absurd rfl (hi flag)
  | _ => rfl

end Element

/-- What a snapshot holds of one component. -/
structure Progress where
  state : State
  answer? : Option String
  path? : Option RawPath
deriving DecidableEq, Repr

/-- What is read back of it from a snapshot: the text of the path stands for the path. -/
def Progress.settled (p : Progress) : Progress := { p with path? := p.path?.map RawPath.settled }

namespace Component

/-- What a snapshot holds of the component itself. -/
def progress : Component → Progress
  | .leaf _ state element => ⟨state, element.answer?, element.path?⟩
  | .sheet _ state _ _ => ⟨state, none, none⟩

/-- Whether the component is an optional question. -/
def optional? : Component → Option Bool
  | .leaf _ _ element => element.optional?
  | .sheet .. => none

mutual

/-- The component without its states and with part of every element forgotten. -/
def erased (f : Element → Element) : Component → Component
  | .leaf name _ element => .leaf name .inactive (f element)
  | .sheet name _ orientation items => .sheet name .inactive orientation (erasedItems f items)

/-- The items likewise. -/
def erasedItems (f : Element → Element) : List Component → List Component
  | [] => []
  | c :: rest => erased f c :: erasedItems f rest

end

/-- What a snapshot does not hold. -/
def withoutProgress (c : Component) : Component := c.erased Element.withoutProgress

/-- What no interaction touches. -/
def withoutChanges (c : Component) : Component := c.erased Element.withoutChanges

/-- The path that is recorded, if there is one, has a property. -/
def Records (P : RawPath → Prop) (c : Component) : Prop :=
  ∀ path, c.progress.path? = some path → P path

/-- What is recorded lies below the run. -/
def IsContained (c : Component) : Prop := c.Records fun path => path.isContained = true

theorem erasedItems_eq_map (f : Element → Element) (items : List Component) :
    erasedItems f items = items.map (erased f) := by
  induction items with
  | nil => rfl
  | cons c rest ih => rw [erasedItems, List.map_cons, ih]

theorem erased_sheet (f : Element → Element) (name : String) (state : State)
    (orientation : Orientation) (items : List Component) :
    (Component.sheet name state orientation items).erased f =
      .sheet name .inactive orientation (items.map (erased f)) := by
  rw [erased, erasedItems_eq_map]

@[simp] theorem erased_withState (f : Element → Element) (s : State) (c : Component) :
    (c.withState s).erased f = c.erased f := by
  cases c <;> rfl

theorem items_erased (f : Element → Element) (c : Component) :
    (c.erased f).items = c.items.map (erased f) := by
  cases c with
  | leaf name state element => rfl
  | sheet name state orientation items =>
      rw [erased_sheet]
      rfl

/-- The parts of what lasts are what lasts of the parts. -/
theorem item?_erased (f : Element → Element) (c : Component) (p : List Nat) :
    (c.erased f).item? p = (c.item? p).map (erased f) := by
  induction p generalizing c with
  | nil => rw [item?_nil, item?_nil, Option.map_some]
  | cons i p ih =>
      rw [item?_cons, item?_cons, items_erased, List.getElem?_map]
      cases c.items[i]? with
      | none => rfl
      | some d => exact ih d

theorem name_erased (f : Element → Element) (c : Component) : (c.erased f).name = c.name := by
  cases c <;> rfl

theorem name_eq_of_withoutChanges_eq {c d : Component} (h : c.withoutChanges = d.withoutChanges) :
    c.name = d.name := by
  rw [← name_erased Element.withoutChanges c, ← name_erased Element.withoutChanges d]
  exact congrArg name h

/-- Where the same lasts, there are the same parts, and the same lasts of them. -/
theorem exists_item?_of_withoutChanges_eq {c d e : Component} {p : List Nat}
    (h : c.withoutChanges = d.withoutChanges) (he : c.item? p = some e) :
    ∃ e', d.item? p = some e' ∧ e.withoutChanges = e'.withoutChanges := by
  have hmap : (d.item? p).map withoutChanges = some e.withoutChanges := by
    show (d.item? p).map (erased Element.withoutChanges) = some (e.erased Element.withoutChanges)
    rw [← item?_erased, ← Option.map_some, ← he, ← item?_erased]
    exact congrArg (fun f : Component => f.item? p) h.symm
  obtain ⟨e', he', hsame⟩ := Option.map_eq_some_iff.1 hmap
  exact ⟨e', he', hsame.symm⟩

/-- What depends on what lasts alone holds of every part as long as the same lasts. -/
theorem Every.of_withoutChanges_eq {P : Component → Prop} {c d : Component} (h : c.Every P)
    (same : d.withoutChanges = c.withoutChanges)
    (lasts : ∀ e e' : Component, e.withoutChanges = e'.withoutChanges → P e' → P e) : d.Every P := by
  intro p e he
  obtain ⟨e', he', hsame⟩ := exists_item?_of_withoutChanges_eq same he
  exact lasts e e' hsame (h p e' he')

theorem erased_erased {f g : Element → Element} (h : ∀ e, g (f e) = g e) (c : Component) :
    (c.erased f).erased g = c.erased g := by
  induction c using Component.induction with
  | leaf name state element => rw [erased, erased, erased, h]
  | sheet name state orientation items ih =>
      rw [erased_sheet, erased_sheet, erased_sheet, List.map_map]
      congr 1
      exact List.map_congr_left ih

theorem withoutChanges_withoutProgress (c : Component) :
    c.withoutProgress.withoutChanges = c.withoutChanges :=
  erased_erased Element.withoutChanges_withoutProgress c

theorem isElement_erased (f : Element → Element) (c : Component) :
    (c.erased f).IsElement ↔ c.IsElement := by
  cases c <;> exact Iff.rfl

theorem isElement_iff_of_withoutChanges_eq {c d : Component}
    (h : c.withoutChanges = d.withoutChanges) : c.IsElement ↔ d.IsElement := by
  rw [← isElement_erased Element.withoutChanges c, ← isElement_erased Element.withoutChanges d]
  exact iff_of_eq (congrArg IsElement h)

theorem optional?_withoutProgress (c : Component) : c.withoutProgress.optional? = c.optional? := by
  cases c with
  | leaf name state element => exact Element.optional?_withoutProgress element
  | sheet name state orientation items => rfl

/-- What a snapshot does not hold includes every optional flag. -/
theorem optional?_item?_eq_of_withoutProgress_eq {c d : Component}
    (h : c.withoutProgress = d.withoutProgress) (p : List Nat) :
    (c.item? p).bind optional? = (d.item? p).bind optional? := by
  have key : ∀ b : Component,
      (b.withoutProgress.item? p).bind optional? = (b.item? p).bind optional? := by
    intro b
    rw [withoutProgress, item?_erased, Option.bind_map]
    congr 1
    funext e
    exact optional?_withoutProgress e
  rw [← key c, ← key d, h]

/-- Components that agree in what lasts are both text questions or agree in being none. -/
theorem textQuestion_or_optional?_eq {c d : Component} (h : c.withoutChanges = d.withoutChanges) :
    (∃ name state state' q q', c = .leaf name state (.textQuestion q) ∧
      d = .leaf name state' (.textQuestion q')) ∨ c.optional? = d.optional? := by
  cases c with
  | leaf name state element =>
      cases d with
      | leaf name' state' element' =>
          injection h with hname _ helement
          subst hname
          cases element with
          | textQuestion q =>
              cases element' with
              | textQuestion q' => exact Or.inl ⟨name, state, state', q, q', rfl, rfl⟩
              | _ => cases helement
          | _ =>
              cases element' with
              | textQuestion q' => cases helement
              | _ => exact Or.inr rfl
      | sheet name' state' orientation' items' => cases h
  | sheet name state orientation items =>
      cases d with
      | leaf name' state' element' => cases h
      | sheet name' state' orientation' items' => exact Or.inr rfl

/-- A component is what lasts together with the progress and the optional flag of every part. -/
theorem eq_of_withoutChanges_eq {c d : Component} (h : c.withoutChanges = d.withoutChanges)
    (same : ∀ p, (c.item? p).map progress = (d.item? p).map progress)
    (flags : ∀ p, (c.item? p).bind optional? = (d.item? p).bind optional?) : c = d := by
  induction c using Component.induction generalizing d with
  | leaf name state element =>
      cases d with
      | leaf name' state' element' =>
          have hself := same []
          have hflag := flags []
          rw [item?_nil, item?_nil] at hself hflag
          injection h with hname _ helement
          injection hself with hself
          injection hself with hstate hanswer hpath
          rw [hname, hstate, Element.eq_of_withoutChanges_eq helement hanswer hpath hflag]
      | sheet name' state' orientation' items' => cases h
  | sheet name state orientation items ih =>
      cases d with
      | leaf name' state' element' => cases h
      | sheet name' state' orientation' items' =>
          rw [withoutChanges, withoutChanges, erased_sheet, erased_sheet] at h
          injection h with hname _ horientation hitems
          have hself := same []
          rw [item?_nil, item?_nil] at hself
          injection hself with hself
          injection hself with hstate
          have hall : items = items' := by
            apply Lists.eq_of_map_eq hitems
            intro j c d hc hd hcd
            apply ih c (List.mem_of_getElem? hc) hcd
            · intro p
              have hp := same (j :: p)
              rwa [item?_sheet_cons, item?_sheet_cons, hc, hd] at hp
            · intro p
              have hp := flags (j :: p)
              rwa [item?_sheet_cons, item?_sheet_cons, hc, hd] at hp
          rw [hname, hstate, horientation, hall]

theorem Reacts.erased_eq {f : Element → Element} {i : Interaction} {c d : Component}
    (h : c.Reacts i d) (hf : ∀ e s e', Element.Reacts i e s e' → f e' = f e) :
    d.erased f = c.erased f := by
  cases h with
  | leaf name before h => rw [erased, erased, hf _ _ _ h]
  | sheet name before state orientation items => rfl

/-- An interaction leaves what it leaves of every element. -/
theorem Responds.erased_eq {f : Element → Element} {i : Interaction} {p : List Nat}
    {c d : Component} {changes : List ItemChange} (h : Responds i p c d changes)
    (hf : ∀ e s e', Element.Reacts i e s e' → f e' = f e) : d.erased f = c.erased f := by
  induction h with
  | addressed h => exact h.erased_eq hf
  | within name state orientation hi _ ih =>
      rw [erased_sheet, erased_sheet]
      congr 1
      exact Lists.map_set_of_eq hi ih

/-- An interaction leaves what lasts. -/
theorem Responds.withoutChanges_eq {i : Interaction} {p : List Nat} {c d : Component}
    {changes : List ItemChange} (h : Responds i p c d changes) :
    d.withoutChanges = c.withoutChanges :=
  h.erased_eq fun _ _ _ h => h.withoutChanges_eq

/-- An interaction leaves what a snapshot does not hold, unless it is about that. -/
theorem Responds.withoutProgress_eq {i : Interaction} {p : List Nat} {c d : Component}
    {changes : List ItemChange} (h : Responds i p c d changes) (hi : ∀ flag, i ≠ .optional flag) :
    d.withoutProgress = c.withoutProgress :=
  h.erased_eq fun _ _ _ h => h.withoutProgress_eq hi

variable {P : RawPath → Prop}

theorem IsInitial.records {c : Component} (h : c.IsInitial) : c.Records P := by
  intro path hpath
  cases c with
  | leaf name state element =>
      cases element with
      | experiment e =>
          have hnone : e.path = none := h.1
          have hsome : e.path = some path := hpath
          rw [hnone] at hsome
          cases hsome
      | _ => cases hpath
  | sheet name state orientation items => cases hpath

theorem records_sheet (name : String) (state : State) (orientation : Orientation)
    (items : List Component) : (Component.sheet name state orientation items).Records P :=
  nofun

theorem Records.withState {c : Component} (h : c.Records P) (s : State) :
    (c.withState s).Records P := by
  cases c with
  | leaf name state element => exact h
  | sheet name state orientation items => exact records_sheet _ _ _ _

theorem Reacts.records {i : Interaction} {c d : Component} (h : c.Reacts i d) (hc : c.Records P)
    (hi : ∀ path, i = .record path → path.isContained = true → P path) : d.Records P := by
  cases h with
  | leaf name before h =>
      cases h with
      | override s e => exact hc
      | record path e contained =>
          intro path' hpath
          injection hpath with hpath
          rw [← hpath]
          exact hi path rfl contained
      | _ => exact nofun
  | sheet name before state orientation items => exact records_sheet _ _ _ _

/-- An interaction records nothing but a path below the run that it brings. -/
theorem Responds.every_records {i : Interaction} {p : List Nat} {c d : Component}
    {changes : List ItemChange} (h : Responds i p c d changes) (hc : c.Every (Records P))
    (hi : ∀ path, i = .record path → path.isContained = true → P path) : d.Every (Records P) := by
  induction h with
  | @addressed c d h =>
      cases h with
      | leaf name before h =>
          rw [every_leaf] at hc ⊢
          exact (Reacts.leaf name before h).records hc hi
      | sheet name before state orientation items =>
          rw [every_sheet] at hc ⊢
          exact ⟨records_sheet _ _ _ _, hc.2⟩
  | within name state orientation found _ ih =>
      rw [every_sheet] at hc ⊢
      exact ⟨records_sheet _ _ _ _, every_set hc.2 (ih (hc.2 _ (List.mem_of_getElem? found)))⟩

end Component

end GuidedLab
