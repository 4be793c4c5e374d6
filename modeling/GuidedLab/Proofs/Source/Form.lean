import GuidedLab.Proofs.Source.Loaded

/-!
# The form of a draft

What the form asks of outcomes can be seen in a draft: none of them stands on the ordinary branch, and
each has a page (`inForm_of_draftOf`). Everything else that is asked of pages is asked of a draft when
it is built.
-/

namespace GuidedLab.Source

open Json (Value)

mutual

/-- The outcomes of every page are in form. -/
def Pages.InForm : Pages → Prop
  | .nil => True
  | .cons _ outcomes rest => outcomes.InForm ∧ rest.InForm

/-- Outcomes are not on the ordinary branch and have pages. -/
def Outcomes.InForm : Outcomes → Prop
  | .nil => True
  | .cons branch pages rest => branch ≠ 0 ∧ pages ≠ .nil ∧ pages.InForm ∧ rest.InForm

end

/-- A branch that is read from an outcome in form is not the ordinary one. -/
theorem ne_zero_of_branch? {name : String} {members : Schema.Members} {branch : UInt32}
    (form : Schema.requires name Schema.isOutcome members = true)
    (h : branch? name members = some branch) : branch ≠ 0 := by
  rw [branch?] at h
  split at h
  · next n hn =>
      rw [Schema.requires, hn, Option.any_some, Schema.isOutcome, decide_eq_true_eq] at form
      split at h
      · next hrange =>
          cases h
          intro hzero
          have hnat := congrArg UInt32.toNat hzero
          rw [UInt32.toNat_ofNat_of_lt' (by omega)] at hnat
          have : n.toNat = 0 := hnat
          omega
      · cases h
  · cases h

mutual

/-- Pages that are read from a value in form are in form, and there is one. -/
theorem inForm_of_pages? : ∀ {v : Value} {pages : Pages}, Schema.isPages v = true →
    pages? v = some pages → pages ≠ .nil ∧ pages.InForm
  | .null, _, _, h => nomatch h
  | .bool _, _, _, h => nomatch h
  | .number _, _, _, h => nomatch h
  | .string _, _, _, h => nomatch h
  | .object _, _, _, h => nomatch h
  | .array vs, pages, form, h => by
    refine ⟨pages_ne_nil_of_pages? h form, ?_⟩
    rw [Schema.isPages, Bool.and_eq_true] at form
    exact inForm_of_pageList? form.2 h

/-- Pages that are read from values likewise. -/
theorem inForm_of_pageList? : ∀ {vs : List Value} {pages : Pages}, Schema.arePages vs = true →
    pageList? vs = some pages → pages.InForm
  | [], pages, _, h => by
    cases h
    exact trivial
  | v :: rest, pages, form, h => by
    rw [Schema.arePages, Bool.and_eq_true] at form
    rw [pageList?] at h
    obtain ⟨page, hpage, h⟩ := Option.bind_eq_some_iff.1 h
    obtain ⟨others, ho, h⟩ := Option.bind_eq_some_iff.1 h
    cases h
    exact ⟨inForm_of_page? form.1 hpage, inForm_of_pageList? form.2 ho⟩

/-- The outcomes of a page that is read from a value likewise. -/
theorem inForm_of_page? : ∀ {v : Value} {page : ComponentDraft × Outcomes},
    Schema.isPage v = true → page? v = some page → page.2.InForm
  | .null, _, _, h => nomatch h
  | .bool _, _, _, h => nomatch h
  | .number _, _, _, h => nomatch h
  | .string _, _, _, h => nomatch h
  | .array _, _, _, h => nomatch h
  | .object members, page, form, h => by
    rw [Schema.isPage, Bool.and_eq_true] at form
    rw [page?] at h
    obtain ⟨component, -, h⟩ := Option.bind_eq_some_iff.1 h
    obtain ⟨outcomes, ho, h⟩ := Option.bind_eq_some_iff.1 h
    cases h
    exact inForm_of_outcomes? form.2 ho

/-- The outcomes that the members of a page spell likewise. -/
theorem inForm_of_outcomes? : ∀ {members : List (String × Value)} {outcomes : Outcomes},
    Schema.branchesAreBranches members = true → outcomes? members = some outcomes →
      outcomes.InForm
  | [], outcomes, _, h => by
    cases h
    exact trivial
  | (k, v) :: rest, outcomes, form, h => by
    rw [Schema.branchesAreBranches, Bool.and_eq_true] at form
    rw [outcomes?] at h
    split at h
    · next hk =>
        have hform : Schema.isBranchArray v = true := by simpa [hk] using form.1
        exact inForm_of_outcomeArray? hform h
    · exact inForm_of_outcomes? form.2 h

/-- The outcomes that an array spells likewise. -/
theorem inForm_of_outcomeArray? : ∀ {v : Value} {outcomes : Outcomes},
    Schema.isBranchArray v = true → outcomeArray? v = some outcomes → outcomes.InForm
  | .null, _, _, h => nomatch h
  | .bool _, _, _, h => nomatch h
  | .number _, _, _, h => nomatch h
  | .string _, _, _, h => nomatch h
  | .object _, _, _, h => nomatch h
  | .array _, _, form, h => inForm_of_outcomeList? form h

/-- The outcomes that values spell likewise. -/
theorem inForm_of_outcomeList? : ∀ {vs : List Value} {outcomes : Outcomes},
    Schema.areBranches vs = true → outcomeList? vs = some outcomes → outcomes.InForm
  | [], outcomes, _, h => by
    cases h
    exact trivial
  | v :: rest, outcomes, form, h => by
    rw [Schema.areBranches, Bool.and_eq_true] at form
    rw [outcomeList?] at h
    obtain ⟨outcome, houtcome, h⟩ := Option.bind_eq_some_iff.1 h
    obtain ⟨others, ho, h⟩ := Option.bind_eq_some_iff.1 h
    cases h
    obtain ⟨hbranch, hne, hpages⟩ := inForm_of_outcome? form.1 houtcome
    exact ⟨hbranch, hne, hpages, inForm_of_outcomeList? form.2 ho⟩

/-- An outcome that is read from a value likewise. -/
theorem inForm_of_outcome? : ∀ {v : Value} {outcome : UInt32 × Pages},
    Schema.isBranch v = true → outcome? v = some outcome →
      outcome.1 ≠ 0 ∧ outcome.2 ≠ .nil ∧ outcome.2.InForm
  | .null, _, _, h => nomatch h
  | .bool _, _, _, h => nomatch h
  | .number _, _, _, h => nomatch h
  | .string _, _, _, h => nomatch h
  | .array _, _, _, h => nomatch h
  | .object members, outcome, form, h => by
    rw [Schema.isBranch, Bool.and_eq_true, Bool.and_eq_true, Bool.and_eq_true] at form
    obtain ⟨⟨⟨-, hbranch⟩, -⟩, hpages⟩ := form
    rw [outcome?] at h
    obtain ⟨branch, hb, h⟩ := Option.bind_eq_some_iff.1 h
    obtain ⟨pages, hp, h⟩ := Option.bind_eq_some_iff.1 h
    cases h
    exact ⟨ne_zero_of_branch? hbranch hb, inForm_of_pagesUnder? hpages hp⟩

/-- The pages that the members of an outcome spell likewise. -/
theorem inForm_of_pagesUnder? : ∀ {members : List (String × Value)} {pages : Pages},
    Schema.pagesArePages members = true → pagesUnder? members = some pages →
      pages ≠ .nil ∧ pages.InForm
  | [], _, _, h => nomatch h
  | (k, v) :: rest, pages, form, h => by
    rw [Schema.pagesArePages, Bool.and_eq_true] at form
    rw [pagesUnder?] at h
    split at h
    · next hk =>
        have hform : Schema.isPages v = true := by simpa [hk] using form.1
        exact inForm_of_pages? hform h
    · exact inForm_of_pagesUnder? form.2 h

end

/-- The pages of a draft that is read from a value are in form, and there is one. -/
theorem inForm_of_draftOf {v : Value} {draft : Draft} (h : draftOf v = .ok draft) :
    draft.pages ≠ .nil ∧ draft.pages.InForm := by
  rw [draftOf] at h
  split at h
  · next form =>
      cases v with
      | object members =>
          rw [Schema.isScript, Bool.and_eq_true, Schema.requires, Schema.requires] at form
          split at h
          · next hdraft =>
              cases h
              rw [Draft.ofJson?] at hdraft
              obtain ⟨title, -, hdraft⟩ := Option.bind_eq_some_iff.1 hdraft
              obtain ⟨pages, hpages, hdraft⟩ := Option.bind_eq_some_iff.1 hdraft
              obtain ⟨w, hw, hpages⟩ := Option.bind_eq_some_iff.1 hpages
              cases hdraft
              rw [hw, Option.any_some] at form
              exact inForm_of_pages? form.2 hpages
          · cases h
      | _ => cases form
  · cases h

end GuidedLab.Source
