import GuidedLab.Component.Saved
import GuidedLab.Proofs.Component.Outline
import GuidedLab.Proofs.Path.Raw
import GuidedLab.Proofs.Text.Marked

/-!
# Saving and restoring a component

What a component is saved as is read back by every component of the same outline: it takes the progress
of each part and keeps everything else (`restoredFrom_savedInto`). Of a recorded path it takes the text,
which is the path itself if that was written as a text. An item is saved into an archive of its own
under its position, and a position is never one of the keys that a sheet uses for itself, so the
archives of different parts do not meet.

Restoring from any archive, with success or not, leaves what a snapshot does not hold
(`withoutProgress_restoredFrom`) and records nothing but texts of paths below the run
(`every_records_restoredFrom`).
-/

namespace GuidedLab

theorem Archive.int?_eq_of_get?_eq {a b : Archive} {key : String} (h : a.get? key = b.get? key) :
    a.int? key = b.int? key := by
  rw [int?, int?, h]

theorem Archive.text?_eq_of_get?_eq {a b : Archive} {key : String} (h : a.get? key = b.get? key) :
    a.text? key = b.text? key := by
  rw [text?, text?, h]

theorem Archive.nested?_eq_of_get?_eq {a b : Archive} {key : String}
    (h : a.get? key = b.get? key) : a.nested? key = b.nested? key := by
  apply Option.ext
  intro c
  rw [nested?_eq_some_iff, nested?_eq_some_iff, h]

theorem State.repr_ne_key (n : Nat) : Nat.repr n ≠ State.key :=
  Text.repr_ne (c := 's') (by decide) (by decide) n

/-- A code fits into 64 bits. -/
theorem State.toInt_ofInt_code (s : State) : (Int64.ofInt s.code).toInt = s.code := by
  apply Int64.toInt_ofInt_of_le
  · cases s <;> simp [State.code]
  · cases s with
    | done b =>
        have := b.toNat_lt
        simp only [State.code]
        omega
    | _ => decide

theorem Path.text_ne_empty_of_isContained {p : Path} (h : p.isContained = true) : p.text ≠ "" := by
  intro he
  obtain ⟨text⟩ := p
  subst he
  revert h
  decide

namespace Element

theorem exists_textQuestion_of_label_eq {e : Element} (h : e.label = "text_question") :
    ∃ q, e = .textQuestion q := by
  cases e with
  | textQuestion q => exact ⟨q, rfl⟩
  | text style s => cases style <;> simp [label] at h
  | _ => simp [label] at h

theorem exists_experiment_of_label_eq {e : Element} (h : e.label = "experiment") :
    ∃ x, e = .experiment x := by
  cases e with
  | experiment x => exact ⟨x, rfl⟩
  | text style s => cases style <;> simp [label] at h
  | _ => simp [label] at h

/-- What an element saves leaves the state. -/
theorem get?_savedInto_stateKey (e : Element) (a : Archive) :
    (e.savedInto a).get? State.key = a.get? State.key := by
  have htext : State.key ≠ TextQuestion.textKey := by decide
  have hnumber : State.key ≠ TextQuestion.numberKey := by decide
  have hanswer : State.key ≠ TextQuestion.answerKey := by decide
  have hpath : State.key ≠ Experiment.pathKey := by decide
  cases e with
  | textQuestion q =>
      rw [savedInto]
      dsimp only
      rw [Archive.putText, Archive.get?_put_of_ne _ hanswer]
      split
      · rfl
      · split
        · rw [Archive.putInt, Archive.get?_put_of_ne _ hnumber, Archive.putText,
            Archive.get?_put_of_ne _ htext]
        · rw [Archive.putText, Archive.get?_put_of_ne _ htext]
  | experiment x =>
      rw [savedInto]
      split
      · rw [Archive.putText, Archive.get?_put_of_ne _ hpath]
      · rfl
  | _ => rfl

/-- The path that is saved is read back as its text. -/
theorem savedPath?_savedInto {x : Experiment} {a : Archive}
    (contained : ∀ path, x.path = some path → path.isContained = true)
    (clear : a.get? Experiment.pathKey = none) :
    savedPath? ((Element.experiment x).savedInto a) = x.path.map RawPath.settled := by
  rw [savedInto, savedPath?]
  cases hp : x.path with
  | none =>
      dsimp only
      rw [Archive.text?, clear]
      rfl
  | some path =>
      dsimp only
      have hne : path.text ≠ "" :=
        Path.text_ne_empty_of_isContained ((path.isContained_text).trans (contained path hp))
      rw [Archive.text?_putText_self, Option.filter_some_pos (by simpa using hne)]
      rfl

/-- What an element is saved as is read back by an element of the same kind. -/
theorem restored?_savedInto (name : String) {a : Archive} {e d : Element}
    (same : d.label = e.label) (contained : ∀ path, e.path? = some path → path.isContained = true)
    (clear : a.get? Experiment.pathKey = none) :
    ∃ r, d.restored? name (e.savedInto a) = .ok r ∧ r.withoutProgress = d.withoutProgress ∧
      r.answer? = e.answer? ∧ r.path? = e.path?.map RawPath.settled := by
  have plain : (∀ q, e ≠ .textQuestion q) → (∀ x, e ≠ .experiment x) →
      d.restored? name (e.savedInto a) = .ok d ∧ d.answer? = none ∧ d.path? = none := by
    intro hq hx
    cases d with
    | textQuestion q =>
        obtain ⟨q', hq'⟩ := exists_textQuestion_of_label_eq same.symm
        exact absurd hq' (hq q')
    | experiment x =>
        obtain ⟨x', hx'⟩ := exists_experiment_of_label_eq same.symm
        exact absurd hx' (hx x')
    | _ => exact ⟨rfl, rfl, rfl⟩
  cases e with
  | textQuestion q =>
      obtain ⟨q', rfl⟩ := exists_textQuestion_of_label_eq same
      refine ⟨.textQuestion { q' with answer := q.answer }, ?_, rfl, rfl, rfl⟩
      rw [restored?, savedInto]
      dsimp only
      rw [Archive.text?_putText_self, Option.getD_some]
  | experiment x =>
      obtain ⟨x', rfl⟩ := exists_experiment_of_label_eq same
      refine ⟨.experiment { x' with path := x.path.map RawPath.settled }, ?_, rfl, rfl, rfl⟩
      have hall : (x.path.map RawPath.settled).all RawPath.isContained = true := by
        rw [Option.all_eq_true]
        intro path hpath
        obtain ⟨old, hold, rfl⟩ := Option.map_eq_some_iff.1 hpath
        exact (old.isContained_settled).trans (contained old hold)
      rw [restored?, savedPath?_savedInto contained clear]
      rw [if_pos hall]
  | _ =>
      obtain ⟨hr, ha, hp⟩ := plain nofun nofun
      exact ⟨d, hr, rfl, ha, hp⟩

/-- Restoring leaves what is not saved. -/
theorem withoutProgress_restored? {name : String} {a : Archive} {e r : Element}
    (h : e.restored? name a = .ok r) : r.withoutProgress = e.withoutProgress := by
  cases e with
  | experiment x =>
      rw [restored?] at h
      split at h
      · cases h
        rfl
      · cases h
  | _ =>
      cases h
      rfl

/-- Restoring records the text of a path below the run or nothing. -/
theorem exists_path_of_restored? {name : String} {a : Archive} {e r : Element}
    (h : e.restored? name a = .ok r) {path : RawPath} (hr : r.path? = some path) :
    ∃ p : Path, p.isContained = true ∧ path = .ofPath p := by
  cases e with
  | experiment x =>
      rw [restored?] at h
      split at h
      · next hall =>
          cases h
          have hcontained := (Option.all_eq_true _ _).1 hall path hr
          obtain ⟨s, -, rfl⟩ := Option.map_eq_some_iff.1 (hr : savedPath? a = some path)
          exact ⟨⟨s⟩, (RawPath.isContained_ofPath ⟨s⟩).symm.trans hcontained, rfl⟩
      · cases h
  | _ =>
      cases h
      cases hr

end Element

namespace Component

/-- A component with the progress of one component in every part, as it is read back, and otherwise like
another. -/
structure Resumes (saved other c : Component) : Prop where
  lasting : c.withoutProgress = other.withoutProgress
  progress_eq : ∀ p, (c.item? p).map progress = (saved.item? p).map fun d => d.progress.settled

theorem get?_itemsSavedInto_of_ne {key : String} {a : Archive} {k : Nat} {items : List Component}
    (h : ∀ j < items.length, key ≠ Nat.repr (k + j)) :
    (itemsSavedInto a k items).get? key = a.get? key := by
  induction items generalizing a k with
  | nil => rw [itemsSavedInto]
  | cons c rest ih =>
      rw [itemsSavedInto, ih]
      · exact Archive.get?_put_of_ne _ (h 0 (Nat.zero_lt_succ _)) _
      · intro j hj
        have hnext := h (j + 1) (Nat.succ_lt_succ hj)
        rwa [Nat.add_comm j 1, ← Nat.add_assoc] at hnext

/-- Each item is saved under its position, into an archive of its own. -/
theorem nested?_itemsSavedInto {a : Archive} {k j : Nat} {items : List Component} {c : Component}
    (h : items[j]? = some c) :
    (itemsSavedInto a k items).nested? (Nat.repr (k + j)) = some (c.savedInto .empty) := by
  induction items generalizing a k j with
  | nil => cases h
  | cons d rest ih =>
      rw [itemsSavedInto]
      cases j with
      | zero =>
          cases h
          have hkey : ∀ i < rest.length, Nat.repr (k + 0) ≠ Nat.repr (k + 1 + i) := by
            intro i _ heq
            have := Text.repr_injective heq
            omega
          rw [Archive.nested?_eq_of_get?_eq (get?_itemsSavedInto_of_ne hkey)]
          exact Archive.nested?_putNested_self _ _ _
      | succ j =>
          rw [← ih (k := k + 1) h, Nat.add_comm j 1, ← Nat.add_assoc]

theorem int?_savedInto (a : Archive) (c : Component) :
    (c.savedInto a).int? State.key = some (Int64.ofInt c.state.code) := by
  have hput : (a.putInt State.key (Int64.ofInt c.state.code)).int? State.key =
      some (Int64.ofInt c.state.code) := Archive.int?_putInt_self _ _ _
  rw [← hput]
  apply Archive.int?_eq_of_get?_eq
  cases c with
  | leaf name state element =>
      rw [savedInto]
      exact element.get?_savedInto_stateKey _
  | sheet name state orientation items =>
      rw [savedInto]
      exact get?_itemsSavedInto_of_ne fun j _ => (State.repr_ne_key _).symm

/-- The state that a component is saved with is read back under any name. -/
theorem savedState_savedInto (name : String) (a : Archive) (c : Component) :
    savedState name (c.savedInto a) = .ok c.state := by
  rw [savedState, int?_savedInto]
  dsimp only
  rw [State.toInt_ofInt_code, State.ofCode?_code]

/-- Items that are restored one by one from where items of the same outlines were saved. -/
theorem itemsRestoredFrom_of_saved {a : Archive} {k : Nat} {items others : List Component}
    (same : others.map outline = items.map outline)
    (each : ∀ c ∈ items, ∀ d, d.outline = c.outline →
      ∃ r, d.restoredFrom (c.savedInto .empty) = (r, .ok ()) ∧ Resumes c d r)
    (saved : ∀ j c, items[j]? = some c →
      a.nested? (Nat.repr (k + j)) = some (c.savedInto .empty)) :
    ∃ rs, itemsRestoredFrom a k others = (rs, .ok ()) ∧
      rs.map withoutProgress = others.map withoutProgress ∧
      ∀ (j : Nat) (p : List Nat), (rs[j]?.bind fun c : Component => c.item? p).map progress =
        (items[j]?.bind fun c : Component => c.item? p).map fun d => d.progress.settled := by
  induction items generalizing k others with
  | nil =>
      rw [List.map_nil, List.map_eq_nil_iff] at same
      subst same
      exact ⟨[], rfl, rfl, fun j p => rfl⟩
  | cons c rest ih =>
      cases others with
      | nil => cases same
      | cons d others =>
          injection same with hhead htail
          obtain ⟨r, hr, hresumes⟩ := each c List.mem_cons_self d hhead
          -- The archive is the same for all items, only the position moves on.
          have hsaved : a.nested? (Nat.repr k) = some (c.savedInto .empty) := saved 0 c rfl
          have hlater : ∀ j e, rest[j]? = some e →
              a.nested? (Nat.repr (k + 1 + j)) = some (e.savedInto .empty) := by
            intro j e he
            have hnext := saved (j + 1) e he
            rwa [Nat.add_comm j 1, ← Nat.add_assoc] at hnext
          obtain ⟨rs, hrs, hlasting, hprogress⟩ :=
            ih htail (fun e he => each e (List.mem_cons_of_mem _ he)) hlater
          refine ⟨r :: rs, ?_, ?_, ?_⟩
          · rw [itemsRestoredFrom, hsaved]
            dsimp only
            rw [hr]
            dsimp only
            rw [hrs]
          · rw [List.map_cons, List.map_cons, hresumes.lasting, hlasting]
          · intro j p
            cases j with
            | zero => exact hresumes.progress_eq p
            | succ j => exact hprogress j p

/-- A component restored from what another one of the same outline is saved as takes the progress
of all its parts and nothing else. -/
theorem restoredFrom_savedInto {c d : Component} (same : d.outline = c.outline)
    (contained : c.Every IsContained) :
    ∃ r, d.restoredFrom (c.savedInto .empty) = (r, .ok ()) ∧ Resumes c d r := by
  induction c using Component.induction generalizing d with
  | leaf name state element =>
      obtain ⟨state', element', rfl, hlabel⟩ := exists_leaf_of_outline_eq same
      have hclear : (Archive.empty.putInt State.key (Int64.ofInt state.code)).get?
          Experiment.pathKey = none := Archive.get?_put_of_ne _ (by decide) _
      obtain ⟨r, hr, hlasting, hanswer, hpath⟩ :=
        Element.restored?_savedInto name hlabel (every_leaf.1 contained) hclear
      refine ⟨.leaf name state r, ?_, ?_, ?_⟩
      · have hstate := savedState_savedInto name .empty (.leaf name state element)
        rw [savedInto] at hstate
        rw [restoredFrom, savedInto, hstate]
        dsimp only
        rw [hr]
        rfl
      · rw [withoutProgress, withoutProgress, erased, erased, hlasting]
      · intro p
        cases p with
        | nil =>
            rw [item?_nil, item?_nil, Option.map_some, Option.map_some, progress, progress, hanswer,
              hpath]
            rfl
        | cons i p => rfl
  | sheet name state orientation items ih =>
      obtain ⟨state', orientation', others, rfl, hitems⟩ := exists_sheet_of_outline_eq same
      obtain ⟨-, hcontained⟩ := every_sheet.1 contained
      obtain ⟨rs, hrs, hlasting, hprogress⟩ := itemsRestoredFrom_of_saved (k := 0)
        (a := (Component.sheet name state orientation items).savedInto .empty) hitems
        (fun c hc d hd => ih c hc hd (hcontained c hc))
        (fun j c hc => by rw [savedInto]; exact nested?_itemsSavedInto hc)
      refine ⟨.sheet name state orientation' rs, ?_, ?_, ?_⟩
      · rw [restoredFrom, savedState_savedInto]
        dsimp only
        rw [hrs]
        rfl
      · rw [withoutProgress, withoutProgress, erased_sheet, erased_sheet]
        congr 1
      · intro p
        cases p with
        | nil => rfl
        | cons i p => exact hprogress i p

/-- An item is restored by itself or not at all. -/
theorem getElem?_itemsRestoredFrom (a : Archive) (k : Nat) (items : List Component) (j : Nat) :
    (itemsRestoredFrom a k items).1[j]? = items[j]? ∨
      ∃ c b, items[j]? = some c ∧
        (itemsRestoredFrom a k items).1[j]? = some (c.restoredFrom b).1 := by
  induction items generalizing k j with
  | nil => exact Or.inl rfl
  | cons c rest ih =>
      rw [itemsRestoredFrom]
      cases hb : a.nested? (Nat.repr k) with
      | none => exact Or.inl rfl
      | some b =>
          dsimp only
          cases j with
          | zero =>
              refine Or.inr ⟨c, b, rfl, ?_⟩
              split <;> next h => rw [h]; rfl
          | succ j =>
              split
              · exact Or.inl rfl
              · exact ih (k + 1) j

/-- What restoring leaves of a component, it leaves of the items of a sheet. -/
theorem map_itemsRestoredFrom {β : Type} {f : Component → β} {items : List Component}
    (h : ∀ c ∈ items, ∀ b, f (c.restoredFrom b).1 = f c) (a : Archive) (k : Nat) :
    (itemsRestoredFrom a k items).1.map f = items.map f := by
  apply List.ext_getElem?
  intro j
  rw [List.getElem?_map, List.getElem?_map]
  rcases getElem?_itemsRestoredFrom a k items j with hj | ⟨c, b, hc, hj⟩
  · rw [hj]
  · rw [hj, hc, Option.map_some, Option.map_some, h c (List.mem_of_getElem? hc)]

/-- A restored sheet has the restored items, and the rest as it was or the state that was saved. -/
theorem restoredFrom_sheet (a : Archive) (name : String) (state : State)
    (orientation : Orientation) (items : List Component) :
    (∃ state', ((Component.sheet name state orientation items).restoredFrom a).1 =
      .sheet name state' orientation (itemsRestoredFrom a 0 items).1) ∨
    ((Component.sheet name state orientation items).restoredFrom a).1 =
      .sheet name state orientation items := by
  rw [restoredFrom]
  split
  · exact Or.inr rfl
  · split <;> next h => rw [h]; exact Or.inl ⟨_, rfl⟩

/-- Restoring leaves what a snapshot does not hold, also where it ends early. -/
theorem withoutProgress_restoredFrom (a : Archive) (c : Component) :
    (c.restoredFrom a).1.withoutProgress = c.withoutProgress := by
  induction c using Component.induction generalizing a with
  | leaf name state element =>
      rw [restoredFrom]
      split
      · rfl
      · split
        · rfl
        · next r hr =>
            rw [withoutProgress, withoutProgress, erased, erased,
              Element.withoutProgress_restored? hr]
  | sheet name state orientation items ih =>
      rcases restoredFrom_sheet a name state orientation items with ⟨state', h⟩ | h
      · rw [h, withoutProgress, withoutProgress, erased_sheet, erased_sheet]
        congr 1
        exact map_itemsRestoredFrom ih a 0
      · rw [h]

/-- Restoring records nothing but texts of paths below the run, also where it ends early. -/
theorem every_records_restoredFrom {P : RawPath → Prop}
    (hP : ∀ p : Path, p.isContained = true → P (.ofPath p)) (a : Archive) {c : Component}
    (h : c.Every (Records P)) : (c.restoredFrom a).1.Every (Records P) := by
  induction c using Component.induction generalizing a with
  | leaf name state element =>
      rw [restoredFrom]
      split
      · exact h
      · split
        · exact h
        · next r hr =>
            refine every_leaf.2 fun path hpath => ?_
            obtain ⟨p, contained, rfl⟩ := Element.exists_path_of_restored? hr hpath
            exact hP p contained
  | sheet name state orientation items ih =>
      rcases restoredFrom_sheet a name state orientation items with ⟨state', hr⟩ | hr
      · rw [hr, every_sheet]
        rw [every_sheet] at h
        refine ⟨records_sheet _ _ _ _, ?_⟩
        intro d hd
        obtain ⟨j, hj⟩ := List.getElem?_of_mem hd
        rcases getElem?_itemsRestoredFrom a 0 items j with he | ⟨c, b, hc, he⟩
        · rw [hj] at he
          exact h.2 d (List.mem_of_getElem? he.symm)
        · rw [hj] at he
          cases he
          exact ih c (List.mem_of_getElem? hc) b (h.2 c (List.mem_of_getElem? hc))
      · rw [hr]
        exact h

end Component

end GuidedLab
