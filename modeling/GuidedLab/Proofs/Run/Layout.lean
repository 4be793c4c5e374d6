import GuidedLab.Run.Name
import GuidedLab.Run.Layout
import GuidedLab.Proofs.Path.Position
import GuidedLab.Proofs.Text.Marked

/-!
# Names in the folder of a run

A valid configuration names the state, the report and the experiments with texts that are one segment, or
that mean nothing or lead up: validity only asks that a name is not blank and has no separator
(`Config.Names`). The name of a recording is a stamp and a name, so it is always a plain one
(`Run.isPlain_nameAt`).
-/

namespace GuidedLab

namespace Config

/-- What validity says of a name in the folder of a run. -/
structure IsNamed (name : String) : Prop where
  filled : name ≠ ""
  whole : '/' ∉ name.toList

/-- What validity says of the names in the folder of a run. -/
structure Names (c : Config) : Prop where
  state : IsNamed c.state
  report : IsNamed c.report
  experiments : IsNamed c.experiments
  distinct : c.state ≠ c.report

theorem isNamed_of_badName? {key name : String} (h : badName? key name = none) : IsNamed name := by
  rw [badName?, Option.or_eq_none_iff, blank?, notPlain?] at h
  obtain ⟨hblank, hplain⟩ := h
  constructor
  · rintro rfl
    rw [Text.isBlankText_empty, if_pos rfl] at hblank
    cases hblank
  · intro hmem
    have hany : (name.toList.any fun c => c = '/' || c = '\\') = true :=
      List.any_eq_true.2 ⟨'/', hmem, rfl⟩
    rw [if_pos hany] at hplain
    cases hplain

theorem names_of_validate {c : Config} (valid : c.validate = .ok ()) : c.Names := by
  rw [validate] at valid
  split at valid
  · next h =>
      rw [broken?] at h
      simp only [Option.or_eq_none_iff] at h
      obtain ⟨-, hstate, hreport, hexperiments, hdistinct⟩ := h
      refine ⟨isNamed_of_badName? hstate, isNamed_of_badName? hreport,
        isNamed_of_badName? hexperiments, ?_⟩
      intro e
      rw [if_pos e] at hdistinct
      cases hdistinct
  · cases valid

variable {name : String}

theorem IsNamed.isSegment (h : IsNamed name) (ne : name ≠ ".") : Path.IsSegment name :=
  ⟨by simp [Path.isIdle, h.filled, ne], h.whole⟩

theorem IsNamed.isPlain (h : IsNamed name) (ne : name ≠ ".") (up : name ≠ "..") :
    Path.IsPlain name :=
  ⟨h.isSegment ne, up⟩

end Config

namespace Run

theorem not_mem_padded (width n : Nat) : '/' ∉ (Text.padded width n).toList := by
  rw [Text.padded, String.toList_append, List.mem_append, String.toList_ofList, Nat.repr,
    String.toList_ofList]
  rintro (h | h)
  · exact absurd (List.eq_of_mem_replicate h) (by decide)
  · exact Text.not_mem_toDigits (by decide) (by decide) h

theorem not_mem_stamp (m : Moment) : '/' ∉ m.stamp.toList := by
  have hyear : '/' ∉ (Moment.yearText m.year).toList := by
    rw [Moment.yearText]
    split
    · exact not_mem_padded _ _
    · rw [String.toList_append, List.mem_append]
      rintro (h | h)
      · split at h <;> exact absurd h (by decide)
      · exact not_mem_padded _ _ h
  rw [Moment.stamp, Moment.joined]
  simp only [String.toList_append, List.mem_append, not_or]
  have hdash : '/' ∉ "-".toList := by decide
  have hline : '/' ∉ "_".toList := by decide
  exact ⟨⟨⟨⟨⟨⟨⟨⟨⟨⟨hyear, hdash⟩, not_mem_padded _ _⟩, hdash⟩, not_mem_padded _ _⟩, hline⟩,
    not_mem_padded _ _⟩, hdash⟩, not_mem_padded _ _⟩, hdash⟩, not_mem_padded _ _⟩

theorem two_lt_length_stamp (m : Moment) : 2 < m.stamp.toList.length := by
  rw [Moment.stamp, Moment.joined]
  simp only [String.toList_append, List.length_append]
  have hdash : "-".toList.length = 1 := rfl
  have hline : "_".toList.length = 1 := rfl
  omega

/-- The name of a recording names something in a folder, whatever the clock says. -/
theorem isPlain_nameAt (m : Moment) {seed : String} (h : '/' ∉ seed.toList) :
    Path.IsPlain (nameAt m seed) := by
  have hlong := two_lt_length_stamp m
  rw [nameAt]
  split
  · exact Path.isPlain_of_length hlong (not_mem_stamp m)
  · apply Path.isPlain_of_length
    · simp only [String.toList_append, List.length_append]
      omega
    · simp only [String.toList_append, List.mem_append, not_or]
      exact ⟨⟨not_mem_stamp m, by decide⟩, h⟩

end Run

end GuidedLab
