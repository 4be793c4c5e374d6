import GuidedLab.Proofs.Tree.Description
import GuidedLab.Proofs.Script.Run

/-!
# What the description of a script depends on

A description is a matter of the outline alone. No run changes the outline (`outline_after`), and the
numbers of the pages are not in it, so scripts of one structure have one description at all times, in
whatever order their pages were put in.

The other direction needs names that do not read like the end of a name. A tree in which no name has a
`>` at all is legible (`Tree.legible_of_names`), and the description of a legible tree tells its outline
with all names in it, whatever other characters they are made of.
-/

namespace GuidedLab

namespace Component

/-- What holds of all names in a component holds of the name of each part. -/
theorem every_name {P : String → Prop} {c : Component} (h : ∀ name ∈ c.allNames, P name) :
    c.Every fun d => P d.name := by
  induction c using Component.induction with
  | leaf name state element => exact every_leaf.2 (h name (List.mem_singleton.2 rfl))
  | sheet name state orientation items ih =>
      rw [allNames, itemNames_eq_flatMap] at h
      refine every_sheet.2 ⟨h name List.mem_cons_self, ?_⟩
      intro c hc
      apply ih c hc
      intro other ho
      exact h other (List.mem_cons_of_mem _ (List.mem_flatMap.2 ⟨c, hc, ho⟩))

/-- Where no name has the character that ends names, none is followed by what looks like its end. -/
theorem legible_of_allNames {c : Component} (h : ∀ name ∈ c.allNames, '>' ∉ name.toList)
    (mark : Char) : c.Legible mark := by
  have ends : ∀ m d, '>' ∉ (name d).toList → d.NameEnds m :=
    fun m d hd hin => hd (hin.subset List.mem_cons_self)
  have hall := every_name h
  refine ⟨ends mark c hall.self, ?_⟩
  intro d hd
  obtain ⟨i, hi⟩ := List.getElem?_of_mem hd
  have hitem : c.item? [i] = some d := by
    rw [item?_cons, hi, Option.bind_some, item?_nil]
  exact (hall.item hitem).mono (ends ',')

end Component

namespace Tree

variable {t u : Tree}

theorem legible_of_names (h : ∀ name ∈ t.names, '>' ∉ name.toList) : t.Legible := by
  intro c hc
  apply Component.legible_of_allNames
  intro name hname
  exact h name (List.mem_flatMap.2 ⟨c, hc, hname⟩)

/-- Legible trees of one description have one outline. -/
theorem Legible.outline_eq (ht : t.Legible) (hu : u.Legible) (h : t.description = u.description) :
    t.outline = u.outline := by
  have rows : ∀ v : Tree, v.Legible → ∀ x ∈ v.pages.rows 0, x.1.Legible '\x7b' := by
    intro v hv x hx
    apply hv
    rw [components, ← Branches.map_fst_rows 0]
    exact List.mem_map_of_mem hx
  rw [description, description, Fingerprint.pages_eq_flatMap, Fingerprint.pages_eq_flatMap] at h
  rw [outline_eq_rows, outline_eq_rows]
  exact Fingerprint.rows_inj (Or.inl ⟨rows t ht, rows u hu⟩) (String.ofList_inj.1 h)

end Tree

namespace Script

/-- No run changes the structure of a script. -/
theorem outline_after (s : Script) (calls : List Call) :
    (s.after calls).tree.outline = s.tree.outline :=
  Tree.outline_eq_of_withoutChanges_eq (withoutChanges_after s calls)

theorem description_after (s : Script) (calls : List Call) :
    (s.after calls).tree.description = s.tree.description :=
  Tree.description_eq_of_outline_eq (outline_after s calls)

/-- After any runs, two scripts of one structure have one description. If no name in them has a `>`, they
have one description only if they have one structure. -/
theorem descriptions_after (s t : Script) (calls calls' : List Call) :
    (s.after calls).tree.outline = s.tree.outline ∧
    (s.tree.outline = t.tree.outline →
      (s.after calls).tree.description = (t.after calls').tree.description) ∧
    ((∀ name ∈ s.tree.names ++ t.tree.names, '>' ∉ name.toList) →
      (s.after calls).tree.description = (t.after calls').tree.description →
        s.tree.outline = t.tree.outline) := by
  rw [description_after, description_after]
  refine ⟨outline_after s calls, Tree.description_eq_of_outline_eq, ?_⟩
  intro h
  obtain ⟨hs, ht⟩ := List.forall_mem_append.1 h
  exact (Tree.legible_of_names hs).outline_eq (Tree.legible_of_names ht)

/-- A page and two after it, on the branches and in the order that are given. -/
def forked (first second : UInt32 × String) : Except Fault Tree := do
  let root := Tree.new (.ofItems "\x22\\\n" .vertical [.ofCheckbox "ü" ""])
  let (t, _) ← root.addBranch 0 first.1 (.ofText first.2 "")
  let (t, _) ← t.addBranch 0 second.1 (.ofText second.2 "")
  .ok t

/-- Two trees that grew in different orders, with the names of their pages in any characters but one. -/
theorem descriptions_after_forked :
    ∃ s t : Script, forked (0, "a") (7, "<b'") = .ok s.tree ∧ forked (7, "<b'") (0, "a") = .ok t.tree ∧
      s.tree.preorder ≠ t.tree.preorder ∧ s.tree.description = t.tree.description ∧
      s.tree.outline = t.tree.outline := by
  refine ⟨.new "" _, .new "" _, rfl, rfl, by decide, rfl, ?_⟩
  exact (descriptions_after (.new "" _) (.new "" _) [] []).2.2 (by decide) rfl

end Script

end GuidedLab
