import GuidedLab.Proofs.Source.Described
import GuidedLab.Proofs.Source.Form
import GuidedLab.Proofs.Tree.Placed

/-!
# How pages lie in the tree

`pages.LaidOut t n` says how the pages of a draft lie in a tree, numbered from `n` on as they are
written: a page, then the pages of its outcomes, then the pages after it. The component of a page is
described by its draft. On the ordinary branch of a page comes the next page of its list, on every other
branch the first page of the outcome that is written for it, and nothing if there is none. Since this is
said of every branch, there are no other links.

Built pages are laid out like that (`laidOut_of_buildPages`), although the branches of a page are not
built in the order in which they are listed: what is built is put among what is there already, and found
in the whole as it was found before.
-/

namespace GuidedLab.Source

/-- The number of the first page, for pages numbered from a number on. -/
def Pages.first? (n : Nat) : Pages → Option Nat
  | .nil => none
  | .cons .. => some n

/-- The number of the first page of the outcome on a branch, for outcomes numbered from a number on. -/
def Outcomes.first? (branch : UInt32) (n : Nat) : Outcomes → Option Nat
  | .nil => none
  | .cons b pages rest =>
    if b = branch then pages.first? n else rest.first? branch (n + pages.size)

mutual

/-- Pages lie in a tree from a number on. -/
def Pages.LaidOut (t : Tree) (n : Nat) : Pages → Prop
  | .nil => True
  | .cons component outcomes rest =>
    (∃ c, t.component? n = some c ∧ component.Describes none c) ∧
      t.successor? n 0 = rest.first? (n + 1 + outcomes.size) ∧
      (∀ branch, branch ≠ 0 → t.successor? n branch = outcomes.first? branch (n + 1)) ∧
      outcomes.LaidOut t (n + 1) ∧ rest.LaidOut t (n + 1 + outcomes.size)

/-- The pages of outcomes lie in a tree from a number on. -/
def Outcomes.LaidOut (t : Tree) (n : Nat) : Outcomes → Prop
  | .nil => True
  | .cons _ pages rest => pages.LaidOut t n ∧ rest.LaidOut t (n + pages.size)

end

variable {known : List String} {name : String} {branch : UInt32} {vacancy : Except Misfit Unit}

theorem vacant_eq_ok_iff {taken : Branches Component} :
    vacant name branch taken = .ok () ↔ taken.link? branch = none := by
  rw [vacant]
  constructor
  · intro h
    split at h
    · next hnone => exact hnone
    · cases h
  · intro hnone
    rw [hnone]

/-- No outcome in form is on the ordinary branch. -/
theorem first?_zero : ∀ {outcomes : Outcomes}, outcomes.InForm → ∀ n, outcomes.first? 0 n = none
  | .nil, _, _ => rfl
  | .cons _ _ _, form, n => by
    rw [Outcomes.first?, if_neg form.1]
    exact first?_zero form.2.2.2 _

/-- Built pages put among branches are linked on their own branch, which was free. -/
theorem link?_union_of_buildPages {pages : Pages} {n : Nat} {first built : Branches Component}
    (h : buildPages known branch (vacant name branch built) n pages = .ok first) (b : UInt32) :
    (first.union built).link? b =
      (built.link? b).or (if branch = b then pages.first? n else none) := by
  cases pages with
  | nil =>
      cases h
      rw [Branches.union, Pages.first?, ite_self, Option.or_none]
  | cons component outcomes rest =>
      have hfree := (buildPages_sound h).2.1
      obtain ⟨c, after, next, -, -, -, rfl⟩ := exists_cons_of_buildPages h
      have hfree := vacant_eq_ok_iff.1 (hfree fun hnil => by cases hnil)
      rw [Branches.union_single, Branches.link?_place hfree, Pages.first?]
      by_cases hb : branch = b
      · rw [if_pos hb, if_pos hb, ← hb, hfree, Option.none_or]
      · rw [if_neg hb, if_neg hb, Option.or_none]

/-- Built outcomes are linked on the branches that they are written for. -/
theorem link?_of_buildOutcomes : ∀ {outcomes : Outcomes} {n : Nat} {built t : Branches Component},
    outcomes.InForm → buildOutcomes known name n built outcomes = .ok t → ∀ b,
      t.link? b = (built.link? b).or (outcomes.first? b n)
  | .nil, n, built, t, _, h => by
    cases h
    intro b
    rw [Outcomes.first?, Option.or_none]
  | .cons branch pages rest, n, built, t, form, h => by
    rw [buildOutcomes] at h
    obtain ⟨first, hp, h⟩ := Success.bind_eq_ok_iff.1 h
    intro b
    rw [link?_of_buildOutcomes form.2.2.2 h, link?_union_of_buildPages hp, Option.or_assoc,
      Outcomes.first?]
    congr 1
    by_cases hb : branch = b
    · rw [if_pos hb, if_pos hb]
      cases hpages : pages with
      | nil => exact absurd hpages form.2.1
      | cons => rfl
    · rw [if_neg hb, if_neg hb, Option.none_or]

/-- Where no number comes twice, pages of one place put among branches are found, and those that were
there still are. -/
theorem within_union {n : Nat} {first built : Branches Component} (one : AtMostOne branch n first)
    (hd : (first.union built).nodes.Nodup) :
    first.Within (first.union built) ∧ built.Within (first.union built) := by
  rcases one with rfl | ⟨c, after, rfl⟩
  · exact ⟨nofun, .refl _⟩
  · exact ⟨.place_self hd, .place_other hd⟩

mutual

/-- Built pages lie in every tree in which they are found. -/
theorem laidOut_of_buildPages {t : Tree} {branch : UInt32} {vacancy : Except Misfit Unit} :
    ∀ {pages : Pages} {n : Nat} {u : Branches Component}, pages.InForm →
      buildPages known branch vacancy n pages = .ok u → u.Within t.pages → pages.LaidOut t n
  | .nil, _, _, _, _, _ => trivial
  | .cons component outcomes rest, n, u, form, h, hu => by
    have hd : u.nodes.Nodup :=
      (buildPages_sound h).2.2.2.2.nodup_iff.2 List.nodup_range'
    obtain ⟨c, after, next, hc, ho, hr, rfl⟩ := exists_cons_of_buildPages h
    have hself := hu n (c, next.union after) (by rw [Branches.find?, if_pos rfl])
    have hafter := (Branches.Within.after_cons hd).trans hu
    obtain ⟨hnext, hothers⟩ := within_union (buildPages_sound hr).1 (Branches.nodup_after hd)
    have hdafter : after.nodes.Nodup := by
      have hperm := (buildOutcomes_sound ho (Nat.le_refl _) trivial trivial).2.2
      rw [Branches.nodes_nil, List.nil_append] at hperm
      exact hperm.nodup_iff.2 List.nodup_range'
    have hlink : ∀ b, t.successor? n b = (outcomes.first? b (n + 1)).or
        (if 0 = b then rest.first? (n + 1 + outcomes.size) else none) := by
      intro b
      rw [Tree.successor?, hself, Option.bind_some, link?_union_of_buildPages hr,
        link?_of_buildOutcomes form.1 ho]
      rfl
    refine ⟨⟨c, ?_, ComponentDraft.describes_of_build hc⟩, ?_, ?_, ?_, ?_⟩
    · rw [Tree.component?, hself, Option.map_some]
    · rw [hlink, first?_zero form.1, if_pos rfl, Option.none_or]
    · intro b hb
      rw [hlink, if_neg (Ne.symm hb), Option.or_none]
    · exact (laidOut_of_buildOutcomes form.1 ho (Nat.le_refl _) trivial trivial hdafter
        (hothers.trans hafter)).1
    · exact laidOut_of_buildPages form.2 hr (hnext.trans hafter)

/-- Built outcomes lie in every tree in which they are found with those built before, which are found
there too. -/
theorem laidOut_of_buildOutcomes {t : Tree} {name : String} {k : Nat} :
    ∀ {outcomes : Outcomes} {n : Nat} {built u : Branches Component}, outcomes.InForm →
      buildOutcomes known name n built outcomes = .ok u → k ≤ n → built.Ascending →
      built.Rising k → u.nodes.Nodup → u.Within t.pages →
        outcomes.LaidOut t n ∧ built.Within t.pages
  | .nil, n, built, u, _, h, _, _, _, _, hu => by
    cases h
    exact ⟨trivial, hu⟩
  | .cons branch pages rest, n, built, u, form, h, hk, ascending, rising, hd, hu => by
    rw [buildOutcomes] at h
    obtain ⟨first, hp, h⟩ := Success.bind_eq_ok_iff.1 h
    obtain ⟨one, hvacant, fa, fr, -⟩ := buildPages_sound hp
    obtain ⟨ua, ur, -⟩ :=
      union_sound one (fun hne => vacant_eq_ok (hvacant hne)) fa fr ascending rising hk
    have hk' : k ≤ n + pages.size := by omega
    have hperm := (buildOutcomes_sound h hk' ua ur).2.2
    have hd' := (List.nodup_append.1 (hperm.nodup_iff.1 hd)).1
    obtain ⟨hfirst, hbuilt⟩ := within_union one hd'
    obtain ⟨hrest, hunion⟩ := laidOut_of_buildOutcomes form.2.2.2 h hk' ua ur hd hu
    exact ⟨⟨laidOut_of_buildPages form.2.2.1 hp (hfirst.trans hunion), hrest⟩,
      hbuilt.trans hunion⟩

end

mutual

/-- The names of the pages, by number, are the written ones in the order in which they are written. -/
theorem names_of_laidOutPages {t : Tree} : ∀ {pages : Pages} {n : Nat}, pages.LaidOut t n →
    (List.range' n pages.size).map (fun node => (t.component? node).map Component.name) =
      pages.components.map fun d => some d.name
  | .nil, _, _ => rfl
  | .cons component outcomes rest, n, h => by
    obtain ⟨⟨c, hc, hdescribed⟩, -, -, houtcomes, hrest⟩ := h
    have hsize : 1 + outcomes.size + rest.size = (outcomes.size + rest.size) + 1 := by omega
    rw [Pages.size, hsize, List.range'_succ, ← List.range'_append_1, List.map_cons, List.map_append,
      Pages.components, List.map_cons, List.map_append, names_of_laidOutOutcomes houtcomes,
      names_of_laidOutPages hrest, hc, Option.map_some, hdescribed.name_eq]

/-- The names of the pages of outcomes likewise. -/
theorem names_of_laidOutOutcomes {t : Tree} : ∀ {outcomes : Outcomes} {n : Nat},
    outcomes.LaidOut t n →
      (List.range' n outcomes.size).map (fun node => (t.component? node).map Component.name) =
        outcomes.components.map fun d => some d.name
  | .nil, _, _ => rfl
  | .cons branch pages rest, n, ⟨hpages, hrest⟩ => by
    rw [Outcomes.size, ← List.range'_append_1, List.map_append, Outcomes.components,
      List.map_append, names_of_laidOutPages hpages, names_of_laidOutOutcomes hrest]

end

end GuidedLab.Source
