import GuidedLab.Proofs.Tree.Snapshot
import GuidedLab.Proofs.Component.InPlace
import GuidedLab.Proofs.Component.Refusal

/-!
# Refused operations of a tree

An interaction in a tree is refused if there is no tree, if the address names no page, or if the
page's component refuses it (`respond?_eq_error_iff`). As with one component, nothing is written
before a fault (`inPlace_eq`).

Restoring is another matter. Pages are restored one after the other (`restoreEach`), and a page that
does not fit leaves those before it restored, and itself in part. This is done to a copy, which is
kept only if the last page was reached; `restored?_eq` says that this is what `restored?` answers.
-/

namespace GuidedLab

namespace Branches

variable {α β ε : Type}

/-- Pages are gone through in pre-order, and the first fault is told. -/
theorem values_traverse (f : Nat → α → Except ε β) (p : Nat) (t : Branches α) :
    (t.traverse f p).map values = (t.values.zipIdx p).mapM fun x => f x.2 x.1 := by
  induction t generalizing p with
  | nil => rfl
  | cons b n v after others iha iho =>
      have hlength : after.values.length = after.size := length_values after
      rw [traverse_cons, values_cons, List.zipIdx_cons, List.zipIdx_append, List.mapM_cons,
        List.mapM_append, ← iha, hlength, ← iho]
      cases f p v with
      | error e => rfl
      | ok w =>
          cases after.traverse f (p + 1) with
          | error e => rfl
          | ok after' =>
              cases others.traverse f (p + 1 + after.size) with
              | error e => rfl
              | ok others' =>
                  show Except.ok (values (cons b n w after' others')) = _
                  rw [values_cons]
                  rfl

end Branches

namespace Tree

/-- Why an interaction with the component at an address is refused. -/
inductive Refuses (t : Tree) (a : Address) (i : Interaction) : Fault → Prop where
  | notLoaded (h : t.isEmpty = true) : Refuses t a i .notLoaded
  | noSuchNode (loaded : t.isEmpty = false) (beyond : t.size ≤ a.node) :
      Refuses t a i (.noSuchNode a)
  | within {c : Component} {f : Fault} (found : t.component? a.node = some c)
      (h : c.Refuses i a.items f) : Refuses t a i f

theorem component?_eq_none_iff {t : Tree} {node : Nat} :
    t.component? node = none ↔ t.size ≤ node := by
  rw [← Option.not_isSome_iff_eq_none, component?_isSome_iff, Nat.not_lt]

theorem component?_of_isEmpty {t : Tree} (h : t.isEmpty = true) (node : Nat) :
    t.component? node = none := by
  have hsize : t.size = 0 := by
    apply Decidable.byContradiction
    intro hne
    rw [isEmpty_eq_false_iff.2 hne] at h
    cases h
  rw [component?_eq_none_iff, hsize]
  exact Nat.zero_le node

/-- An interaction is refused in the cases of `Refuses` and in no other. -/
theorem respond?_eq_error_iff {t : Tree} {a : Address} {i : Interaction} {f : Fault} :
    t.respond? a i = .error f ↔ t.Refuses a i f := by
  rw [respond?]
  constructor
  · intro h
    cases hc : t.component? a.node with
    | none =>
        rw [hc] at h
        cases h
        cases he : t.isEmpty with
        | true => exact .notLoaded he
        | false => exact .noSuchNode he (component?_eq_none_iff.1 hc)
    | some c =>
        rw [hc] at h
        exact .within hc (Component.respond?_eq_error_iff.1 (Success.map_eq_error_iff.1 h))
  · intro h
    cases h with
    | notLoaded he =>
        rw [component?_of_isEmpty he]
        dsimp only
        rw [if_pos he]
    | noSuchNode he beyond =>
        rw [component?_eq_none_iff.2 beyond, he]
        rfl
    | within hc h =>
        rw [hc]
        exact Success.map_eq_error_iff.2 (Component.respond?_eq_error_iff.2 h)

/-- The tree after the writes of an interaction, and the changes or the fault that ended it. -/
def inPlace (t : Tree) (a : Address) (i : Interaction) : Tree × Except Fault (List Change) :=
  if t.isEmpty then (t, .error .notLoaded)
  else
    match t.component? a.node with
    | none => (t, .error (.noSuchNode a))
    | some c =>
      let r := c.inPlace i a.items
      (t.set a.node r.1, r.2.map fun changes => changes.map (.ofItem a.node))

theorem set_component? {t : Tree} {node : Nat} {c : Component} (h : t.component? node = some c) :
    t.set node c = t := by
  apply eq_of_component?_eq (shape_set t node c)
  intro other
  by_cases ho : other = node
  · rw [ho, component?_set_self h, h]
  · exact component?_set_of_ne ho t c

theorem inPlace_eq (t : Tree) (a : Address) (i : Interaction) :
    t.inPlace a i = allOrNothing t (t.respond? a i) := by
  rw [inPlace, respond?]
  cases he : t.isEmpty with
  | true =>
      rw [component?_of_isEmpty he]
      rfl
  | false =>
      cases hc : t.component? a.node with
      | none => rfl
      | some c =>
          simp only [Component.inPlace_eq]
          cases c.respond? i a.items with
          | ok r => rfl
          | error f =>
              show (t.set a.node c, _) = _
              rw [set_component? hc]
              rfl

/-- The tree with pages restored one after the other, from a position on, and the fault of the first
that does not fit. -/
def restoreEach (a : Archive) (position : Nat) : List Nat → Tree → Tree × Except Fault Unit
  | [], t => (t, .ok ())
  | node :: rest, t =>
    match a.nested? (Nat.repr position), t.component? node with
    | none, _ => (t, .error (.noSavedState position))
    | some _, none => (t, .error (.noSuchNode (.ofNode node)))
    | some b, some c =>
      match c.restoredFrom b with
      | (d, .error f) => (t.set node d, .error f)
      | (d, .ok ()) => restoreEach a (position + 1) rest (t.set node d)

/-- The first page does not fit, or it is restored and the rest comes after it. -/
theorem restoreEach_cons_cases {position node : Nat} {t : Tree} {c : Component}
    (found : t.component? node = some c) (a : Archive) (rest : List Nat) :
    (∃ f, restoredAt a position c = .error f ∧
      (restoreEach a position (node :: rest) t).2 = .error f) ∨
    ∃ d, restoredAt a position c = .ok d ∧
      restoreEach a position (node :: rest) t = restoreEach a (position + 1) rest (t.set node d) := by
  rw [restoredAt, restoreEach, found]
  cases a.nested? (Nat.repr position) with
  | none => exact Or.inl ⟨_, rfl, rfl⟩
  | some b =>
      dsimp only [Component.restored?]
      cases c.restoredFrom b with
      | mk d r =>
          cases r with
          | error f => exact Or.inl ⟨f, rfl, rfl⟩
          | ok _ => exact Or.inr ⟨d, rfl, rfl⟩

/-- Pages restored one after the other are the components restored one after the other, each put in
the place it came from. -/
theorem restoreEach_cases {a : Archive} {position : Nat} {nodes : List Nat}
    {components : List Component} {t : Tree} (nodup : nodes.Nodup)
    (found : nodes.map t.component? = components.map some) :
    (∃ f, (components.zipIdx position).mapM (fun x => restoredAt a x.2 x.1) = .error f ∧
      (restoreEach a position nodes t).2 = .error f) ∨
    ∃ restored u, (components.zipIdx position).mapM (fun x => restoredAt a x.2 x.1) = .ok restored ∧
      restoreEach a position nodes t = (u, .ok ()) ∧ u.pages.shape = t.pages.shape ∧
      nodes.map u.component? = restored.map some ∧
      ∀ node, node ∉ nodes → u.component? node = t.component? node := by
  induction nodes generalizing position components t with
  | nil =>
      cases components with
      | nil => exact Or.inr ⟨[], t, rfl, rfl, rfl, rfl, fun _ _ => rfl⟩
      | cons => cases found
  | cons node rest ih =>
      cases components with
      | nil => cases found
      | cons c components =>
          obtain ⟨hc, hrest⟩ := List.cons.inj found
          obtain ⟨hnode, nodup⟩ := List.nodup_cons.1 nodup
          rw [List.zipIdx_cons, List.mapM_cons]
          rcases restoreEach_cons_cases hc a rest with ⟨f, hf, hf'⟩ | ⟨d, hd, he⟩
          · exact Or.inl ⟨f, by rw [hf]; rfl, hf'⟩
          · rw [hd, he]
            -- the rest of the pages is as it was before this one was set
            have hkept : rest.map (t.set node d).component? = components.map some := by
              rw [← hrest]
              apply List.map_congr_left
              intro other ho
              apply component?_set_of_ne
              rintro rfl
              exact hnode ho
            rcases ih nodup hkept with ⟨f, hf, hf'⟩ | ⟨restored, u, hr, hu, hshape, hmap, hout⟩
            · refine Or.inl ⟨f, ?_, hf'⟩
              simp only [hf]
              rfl
            · refine Or.inr ⟨d :: restored, u, ?_, hu, ?_, ?_, ?_⟩
              · simp only [hr]
                rfl
              · rw [hshape, shape_set]
              · rw [List.map_cons, List.map_cons, hmap, hout node hnode, component?_set_self hc]
              · intro other ho
                rw [List.mem_cons, not_or] at ho
                rw [hout other ho.2, component?_set_of_ne ho.1]

theorem restored?_eq_error {t : Tree} {a : Archive} {f : Fault} (ne : t.isEmpty = false)
    (fits : a.text? fingerprintKey = some t.fingerprint)
    (h : t.pages.traverse (restoredAt a) 0 = .error f) : t.restored? a = .error f := by
  rw [restored?, if_neg (by rw [ne]; exact Bool.false_ne_true), if_neg (not_not_intro fits)]
  split
  · next h' =>
      rw [h] at h'
      cases h'
      rfl
  · next h' =>
      rw [h] at h'
      cases h'

/-- The copy of a tree that is restored page by page, if the last page was reached. -/
def restoredOnCopy (a : Archive) (t : Tree) : Except Fault Tree :=
  if t.isEmpty then .error .notLoaded
  else if a.text? fingerprintKey ≠ some t.fingerprint then .error .incompatible
  else
    match restoreEach a 0 t.preorder t with
    | (copy, .ok ()) => .ok copy
    | (_, .error f) => .error f

/-- Pages restored one after the other in pre-order are the pages of `restored?`. -/
theorem restoreEach_preorder (a : Archive) (t : Tree) :
    (∃ f, t.pages.traverse (restoredAt a) 0 = .error f ∧
      (restoreEach a 0 t.preorder t).2 = .error f) ∨
    ∃ u, t.pages.traverse (restoredAt a) 0 = .ok u.pages ∧
      restoreEach a 0 t.preorder t = (u, .ok ()) := by
  have hvalues := Branches.values_traverse (restoredAt a) 0 t.pages
  have hnodup : t.preorder.Nodup := t.sound.nodup
  rcases restoreEach_cases hnodup t.map_component?_preorder with
    ⟨f, hf, hf'⟩ | ⟨restored, u, hr, hu, hshape, hmap, -⟩
  · exact Or.inl ⟨f, Success.map_eq_error_iff.1 (hvalues.trans hf), hf'⟩
  · obtain ⟨pages, ht, hpages⟩ := Success.map_eq_ok_iff.1 (hvalues.trans hr)
    have hcomponents : u.components = restored := by
      rw [← preorder_eq_of_shape_eq hshape, map_component?_preorder] at hmap
      exact (List.map_inj_right fun _ _ => Option.some.inj).1 hmap
    have heq : pages = u.pages :=
      Branches.eq_of_values_eq ((Branches.shape_of_traverse ht).trans hshape.symm)
        (hpages.trans hcomponents.symm)
    exact Or.inr ⟨u, by rw [ht, heq], hu⟩

theorem restored?_eq (a : Archive) (t : Tree) : t.restored? a = t.restoredOnCopy a := by
  rw [restoredOnCopy]
  cases he : t.isEmpty with
  | true =>
      rw [restored?, if_pos he]
      rfl
  | false =>
      by_cases fits : a.text? fingerprintKey = some t.fingerprint
      · rw [if_neg (not_not_intro fits)]
        rcases t.restoreEach_preorder a with ⟨f, hf, hf'⟩ | ⟨u, hu, hu'⟩
        · rw [restored?_eq_error he fits hf]
          cases hr : restoreEach a 0 t.preorder t with
          | mk copy r =>
              rw [hr] at hf'
              cases hf'
              rfl
        · obtain ⟨v, hv, hpages⟩ := restored?_eq_ok he fits hu
          rw [hv, hu', ext hpages]
          rfl
      · rw [restored?, if_neg (by rw [he]; exact Bool.false_ne_true), if_pos fits, if_pos fits]
        rfl

end Tree

end GuidedLab
