import GuidedLab.Proofs.Tree.Links

/-!
# Pages put among branches

A page that is put among the branches of a place is linked there on its branch, if the branch was free,
and the other links stay (`link?_place`). It is found with what follows it, and so are the pages that
were there before (`Within.place_self`, `Within.place_other`), as long as no number comes twice.
-/

namespace GuidedLab.Branches

variable {α : Type}

/-- All pages are found in other branches as they are found in these. -/
def Within (t u : Branches α) : Prop :=
  ∀ node page, t.find? node = some page → u.find? node = some page

/-- Branches of a place that has at most one, put among those of another place. -/
theorem union_single (branch : UInt32) (node : Nat) (v : α) (after t : Branches α) :
    (cons branch node v after nil).union t = place branch node v after t := rfl

theorem link?_place {branch : UInt32} {node : Nat} {v : α} {after t : Branches α}
    (free : t.link? branch = none) (b : UInt32) :
    (place branch node v after t).link? b = if branch = b then some node else t.link? b := by
  induction t with
  | nil => rw [place, link?_cons]
  | cons c m w follow others _ iho =>
      rw [link?_cons] at free
      rw [place]
      split
      · rw [link?_cons]
      · by_cases hc : c = branch
        · rw [if_pos hc] at free
          cases free
        · rw [if_neg hc] at free
          rw [link?_cons, link?_cons, iho free]
          by_cases hb : branch = b
          · rw [if_pos hb, if_pos hb, if_neg fun h => hc (h.trans hb.symm)]
          · rw [if_neg hb, if_neg hb]

namespace Within

variable {t u v : Branches α} {branch : UInt32} {node : Nat} {x : α} {after others : Branches α}

theorem refl (t : Branches α) : t.Within t := fun _ _ h => h

theorem trans (htu : t.Within u) (huv : u.Within v) : t.Within v :=
  fun node page h => huv node page (htu node page h)

theorem after_cons (hd : (cons branch node x after others).nodes.Nodup) :
    after.Within (cons branch node x after others) :=
  fun _ _ h => find?_cons_of_after hd h

theorem others_cons (hd : (cons branch node x after others).nodes.Nodup) :
    others.Within (cons branch node x after others) :=
  fun _ _ h => find?_cons_of_others hd h

/-- A page that is put among branches is found there, and so is what follows it. -/
theorem place_self (hd : (place branch node x after t).nodes.Nodup) :
    (cons branch node x after nil).Within (place branch node x after t) := by
  induction t with
  | nil => exact refl _
  | cons c m w follow others _ iho =>
      rw [place] at hd ⊢
      split at hd
      · next hlt =>
          rw [if_pos hlt]
          intro n page h
          rcases find?_cons_cases h with ⟨rfl, rfl⟩ | h | h
          · rw [find?, if_pos rfl]
          · exact find?_cons_of_after hd h
          · cases h
      · next hnlt =>
          rw [if_neg hnlt]
          exact (iho (nodup_others hd)).trans (others_cons hd)

/-- The pages that were there before are still found. -/
theorem place_other (hd : (place branch node x after t).nodes.Nodup) :
    t.Within (place branch node x after t) := by
  induction t with
  | nil => exact nofun
  | cons c m w follow others _ iho =>
      rw [place] at hd ⊢
      split at hd
      · next hlt =>
          rw [if_pos hlt]
          exact others_cons hd
      · next hnlt =>
          rw [if_neg hnlt]
          intro n page h
          rcases find?_cons_cases h with ⟨rfl, rfl⟩ | h | h
          · rw [find?, if_pos rfl]
          · exact find?_cons_of_after hd h
          · exact others_cons hd n page (iho (nodup_others hd) n page h)

end Within

end GuidedLab.Branches
