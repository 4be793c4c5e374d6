import GuidedLab.Proofs.Component.Fits
import GuidedLab.Proofs.Tree.Refusal

/-!
# Which archives a tree takes back

An archive fits a tree that is loaded if it holds the fingerprint of the tree and under each position
in pre-order an archive that fits the component there (`Fits`). A tree without pages, and one with
another fingerprint, looks at nothing else, so that is their only misfit. Otherwise `misfits` goes
through the components in pre-order.

`restored?_fits` says that a tree takes back what fits it and no other archive, what it holds then, and
that it tells the first misfit of any other archive.
-/

namespace GuidedLab

/-- Later checks matter if there was no fault before. -/
theorem Fault.firstOf_append (first later : List Fault) :
    firstOf (first ++ later) = firstOf first >>= fun _ => firstOf later := by
  cases first with
  | nil => rfl
  | cons f first => rfl

/-- A list that is gone through, each value with its own checks, ends with the first fault of all. -/
theorem Fault.map_mapM_eq_firstOf {α β : Type} {f : α → Except Fault β} {faults : α → List Fault}
    (each : ∀ x, (f x).map (fun _ => ()) = firstOf (faults x)) (l : List α) :
    (l.mapM f).map (fun _ => ()) = firstOf (l.flatMap faults) := by
  induction l with
  | nil => rfl
  | cons x l ih =>
      rw [List.mapM_cons, List.flatMap_cons, firstOf_append, ← each x, ← ih]
      cases f x with
      | error e => rfl
      | ok y => cases l.mapM f <;> rfl

theorem Component.map_restored? (a : Archive) (c : Component) :
    (c.restored? a).map (fun _ => ()) = Fault.firstOf (c.misfits a) := by
  rw [← restoredFrom_snd, restored?]
  cases c.restoredFrom a with
  | mk d r => cases r <;> rfl

theorem Component.restoredFrom_of_restored? {a : Archive} {c d : Component}
    (h : c.restored? a = .ok d) : c.restoredFrom a = (d, .ok ()) := by
  rw [restored?] at h
  split at h
  · next hr =>
      cases h
      exact hr
  · cases h

namespace Tree

/-- An archive holds what a tree needs to be restored. -/
structure Fits (a : Archive) (t : Tree) : Prop where
  loaded : t.isEmpty = false
  fingerprint : a.text? fingerprintKey = some t.fingerprint
  components : ∀ k c, t.components[k]? = some c →
    ∃ b, a.nested? (Nat.repr k) = some b ∧ c.Fits b

/-- What does not fit the component at a position. -/
def misfitsAt (a : Archive) (position : Nat) (c : Component) : List Fault :=
  match a.nested? (Nat.repr position) with
  | none => [.noSavedState position]
  | some b => c.misfits b

/-- What does not fit a tree, in the order it is met. -/
def misfits (a : Archive) (t : Tree) : List Fault :=
  if t.isEmpty then [.notLoaded]
  else if a.text? fingerprintKey ≠ some t.fingerprint then [.incompatible]
  else t.components.zipIdx.flatMap fun x => misfitsAt a x.2 x.1

variable {a : Archive} {t u : Tree}

theorem misfitsAt_eq_nil_iff {position : Nat} {c : Component} :
    misfitsAt a position c = [] ↔ ∃ b, a.nested? (Nat.repr position) = some b ∧ c.Fits b := by
  rw [misfitsAt]
  cases a.nested? (Nat.repr position) with
  | none => simp
  | some b => simp [Component.misfits_eq_nil_iff]

/-- There is nothing that does not fit exactly if the archive fits. -/
theorem misfits_eq_nil_iff : t.misfits a = [] ↔ t.Fits a := by
  rw [misfits]
  cases he : t.isEmpty with
  | true =>
      constructor
      · nofun
      · intro h
        rw [h.loaded] at he
        cases he
  | false =>
      rw [if_neg Bool.false_ne_true]
      by_cases fits : a.text? fingerprintKey = some t.fingerprint
      · rw [if_neg (not_not_intro fits), List.flatMap_eq_nil_iff]
        constructor
        · intro h
          refine ⟨he, fits, ?_⟩
          intro k c hc
          exact misfitsAt_eq_nil_iff.1 (h (c, k) (List.mem_zipIdx_iff_getElem?.2 hc))
        · rintro h ⟨c, k⟩ hx
          exact misfitsAt_eq_nil_iff.2 (h.components k c (List.mem_zipIdx_iff_getElem?.1 hx))
      · rw [if_pos fits]
        constructor
        · nofun
        · intro h
          exact absurd h.fingerprint fits

theorem map_restoredAt (position : Nat) (c : Component) :
    (restoredAt a position c).map (fun _ => ()) = Fault.firstOf (misfitsAt a position c) := by
  rw [restoredAt, misfitsAt]
  cases a.nested? (Nat.repr position) with
  | none => rfl
  | some b => exact c.map_restored? b

theorem map_traverse_restoredAt (a : Archive) (t : Tree) :
    (t.pages.traverse (restoredAt a) 0).map (fun _ => ()) =
      Fault.firstOf (t.components.zipIdx.flatMap fun x => misfitsAt a x.2 x.1) := by
  have each : ∀ x : Component × Nat, (restoredAt a x.2 x.1).map (fun _ => ()) =
      Fault.firstOf (misfitsAt a x.2 x.1) := fun x => map_restoredAt x.2 x.1
  rw [← Fault.map_mapM_eq_firstOf each, components, ← Branches.values_traverse (restoredAt a) 0]
  cases t.pages.traverse (restoredAt a) 0 <;> rfl

/-- A tree is restored up to its first misfit. -/
theorem map_restored? (a : Archive) (t : Tree) :
    (t.restored? a).map (fun _ => ()) = Fault.firstOf (t.misfits a) := by
  rw [misfits]
  cases he : t.isEmpty with
  | true =>
      rw [restored?, if_pos he]
      rfl
  | false =>
      rw [if_neg Bool.false_ne_true]
      by_cases fits : a.text? fingerprintKey = some t.fingerprint
      · rw [if_neg (not_not_intro fits), ← map_traverse_restoredAt]
        cases ht : t.pages.traverse (restoredAt a) 0 with
        | error f =>
            rw [restored?_eq_error he fits ht]
            rfl
        | ok pages =>
            obtain ⟨u, hu, -⟩ := restored?_eq_ok he fits ht
            rw [hu]
            rfl
      · rw [restored?, if_neg (by rw [he]; exact Bool.false_ne_true), if_pos fits, if_pos fits]
        rfl

/-- In a restored tree every part takes what the archive holds below its position. -/
theorem takes_of_restored? (h : t.restored? a = .ok u) {k : Nat} {p : List Nat} {e : Component}
    (he : u.part? k p = some e) : ∃ b, a.below? (k :: p) = some b ∧ e.Takes b := by
  obtain ⟨d, hd, hp⟩ := Option.bind_eq_some_iff.1 he
  have hlength : u.components.length = t.components.length := by
    rw [length_components, length_components]
    exact Branches.size_eq_of_shape_eq (shape_of_restored? h)
  have hk : k < t.components.length := hlength ▸ (List.getElem?_eq_some_iff.1 hd).1
  -- the component at the position has been restored from the archive there
  obtain ⟨d', hat, hd'⟩ := Branches.getElem?_values_of_traverse (traverse_of_restored? h)
    (List.getElem?_eq_getElem hk)
  rw [Nat.zero_add, restoredAt] at hat
  have hd' : u.components[k]? = some d' := hd'
  rw [hd] at hd'
  cases hd'
  cases hb : a.nested? (Nat.repr k) with
  | none =>
      rw [hb] at hat
      cases hat
  | some b =>
      rw [hb] at hat
      obtain ⟨b', hb', htakes⟩ :=
        Component.takes_of_restoredFrom (Component.restoredFrom_of_restored? hat) hp
      exact ⟨b', by rw [Archive.below?, hb, Option.bind_some, hb'], htakes⟩

/-- A tree takes back exactly the archives that fit it and then holds what they hold; of any other
archive it tells the first misfit. -/
theorem restored?_fits (a : Archive) (t : Tree) :
    ((∃ u, t.restored? a = .ok u) ↔ t.Fits a) ∧
    (∀ u, t.restored? a = .ok u → u.withoutProgress = t.withoutProgress ∧
      ∀ k p e, u.part? k p = some e → ∃ b, a.below? (k :: p) = some b ∧ e.Takes b) ∧
    ∀ f, t.restored? a = .error f ↔ (t.misfits a).head? = some f := by
  refine ⟨?_, ?_, ?_⟩
  · rw [← misfits_eq_nil_iff, ← Fault.firstOf_eq_ok_iff, ← map_restored?, Success.map_eq_ok_iff]
    simp
  · intro u hu
    exact ⟨withoutProgress_restored? hu, fun k p e he => takes_of_restored? hu he⟩
  · intro f
    rw [← Fault.firstOf_eq_error_iff, ← map_restored?, Success.map_eq_error_iff]

/-- A tree of one text question. -/
def fallTime : Tree := .new (.ofTextQuestion "time" "How long does it fall?" false)

/-- A snapshot of `fallTime` with an answer. -/
def halfSecond : Archive :=
  (Archive.empty.putNested "0"
    ((Archive.empty.putText TextQuestion.answerKey "half a second").putInt State.key 0)).putText
      fingerprintKey fallTime.fingerprint

theorem restored?_fits_halfSecond :
    (∃ u e b, fallTime.restored? halfSecond = .ok u ∧ u.part? 0 [] = some e ∧
      halfSecond.below? [0] = some b ∧ e.Takes b) ∧
    fallTime.restored? .empty = .error .incompatible := by
  obtain ⟨hfits, htakes, -⟩ := restored?_fits halfSecond fallTime
  obtain ⟨-, -, herror⟩ := restored?_fits .empty fallTime
  have fits : fallTime.Fits halfSecond := by
    refine ⟨rfl, Archive.text?_putText_self _ _ _, fun k c hc => ?_⟩
    cases k with
    | zero =>
        cases hc
        exact ⟨_, rfl, ⟨0, rfl, by decide, by decide⟩, trivial⟩
    | succ k => cases hc
  obtain ⟨u, hu⟩ := hfits.2 fits
  obtain ⟨e, he⟩ : ∃ e, u.part? 0 [] = some e := by
    rw [part?, getElem?_components_of_restored? hu]
    exact ⟨_, rfl⟩
  obtain ⟨b, hb, hheld⟩ := (htakes u hu).2 0 [] e he
  exact ⟨⟨u, e, b, hu, he, hb, hheld⟩, (herror _).2 rfl⟩

end Tree

end GuidedLab
