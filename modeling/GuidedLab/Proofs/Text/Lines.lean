import GuidedLab.Text.Split

/-!
# Lines

The lines of a text are what stands between its ends of lines, so one that ends with an end of line has an
empty last line. A text is *whole* when nothing of its last line is left open: what follows a whole text
starts on a line of its own (`IsWhole.lines_append`). What stands within a line only touches the first line
of what follows it (`exists_lines_append`).
-/

namespace GuidedLab.Text

variable {s t : String} {p : List Char → Bool}

/-- The lines of a text. -/
def lines (s : String) : List (List Char) := pieces '\n' s.toList

/-- A text that is empty or ends with an end of line. -/
def IsWhole (s : String) : Prop := s = "" ∨ ∃ t, s = t ++ "\n"

/-- How many lines of a text are of a kind. -/
def countLines (p : List Char → Bool) (s : String) : Nat := (lines s).countP p

theorem isWhole_empty : IsWhole "" := Or.inl rfl

theorem isWhole_feed (s : String) : IsWhole (s ++ "\n") := Or.inr ⟨s, rfl⟩

theorem IsWhole.append (hs : IsWhole s) (ht : IsWhole t) : IsWhole (s ++ t) := by
  rcases ht with rfl | ⟨t, rfl⟩
  · rwa [String.append_empty]
  · rw [← String.append_assoc]
    exact isWhole_feed _

theorem lines_feed_append (s t : String) : lines (s ++ "\n" ++ t) = lines s ++ lines t := by
  rw [lines, String.toList_append, String.toList_append, List.append_assoc]
  exact pieces_append '\n' s.toList t.toList

theorem lines_feed (s : String) : lines (s ++ "\n") = lines s ++ [[]] := by
  have h := lines_feed_append s ""
  rwa [String.append_empty] at h

/-- What follows a whole text starts on a line of its own. -/
theorem IsWhole.lines_append (h : IsWhole s) (t : String) :
    lines (s ++ t) = (lines s).dropLast ++ lines t := by
  rcases h with rfl | ⟨s, rfl⟩
  · rw [String.empty_append]
    rfl
  · rw [lines_feed_append, lines_feed, List.dropLast_concat]

/-- What stands within a line is put before the first line of what follows. -/
theorem exists_lines_append (h : '\n' ∉ s.toList) (t : String) :
    ∃ first rest, lines t = first :: rest ∧ lines (s ++ t) = (s.toList ++ first) :: rest := by
  obtain ⟨first, rest, ht⟩ := List.exists_cons_of_ne_nil (pieces_ne_nil '\n' t.toList)
  refine ⟨first, rest, ht, ?_⟩
  rw [lines, String.toList_append]
  generalize s.toList = cs at h ⊢
  induction cs with
  | nil => exact ht
  | cons c cs ih =>
      have hc : c ≠ '\n' := fun e => h (e ▸ List.mem_cons_self)
      rw [List.cons_append, pieces, ih fun m => h (List.mem_cons_of_mem _ m)]
      exact if_neg hc

theorem countLines_append (h : IsWhole s) (empty : p [] = false) (t : String) :
    countLines p (s ++ t) = countLines p s + countLines p t := by
  rcases h with rfl | ⟨s, rfl⟩
  · rw [String.empty_append, countLines, countLines]
    show _ = [[]].countP p + _
    rw [List.countP_cons_of_neg (by rw [empty]; exact Bool.false_ne_true), List.countP_nil, Nat.zero_add]
  · rw [countLines, lines_feed_append, countLines, lines_feed, List.countP_append, List.countP_append,
      List.countP_cons_of_neg (by rw [empty]; exact Bool.false_ne_true)]
    rfl

/-- Of a text that follows something within a line, only the further lines stand as they are. -/
theorem countLines_within (h : '\n' ∉ s.toList) (first : ∀ cs, p (s.toList ++ cs) = false)
    (t : String) : countLines p (s ++ t) = (lines t).tail.countP p := by
  obtain ⟨f, rest, ht, hst⟩ := exists_lines_append h t
  rw [countLines, hst, ht, List.countP_cons_of_neg (by rw [first]; exact Bool.false_ne_true)]
  rfl

/-! ### Texts one after the other -/

theorem intercalate_empty_cons (s : String) (rest : List String) :
    "".intercalate (s :: rest) = s ++ "".intercalate rest := by
  cases rest with
  | nil => simp
  | cons t rest => simp [String.intercalate_cons_cons]

theorem isWhole_intercalate {parts : List String} (h : ∀ s ∈ parts, IsWhole s) :
    IsWhole ("".intercalate parts) := by
  induction parts with
  | nil => exact isWhole_empty
  | cons s rest ih =>
      rw [List.forall_mem_cons] at h
      rw [intercalate_empty_cons]
      exact h.1.append (ih h.2)

/-- Where each of several texts has more lines of a kind than another one, so have all together. -/
theorem countLines_intercalate_map {α : Type} {f g : α → String} {more : α → List (List Char)}
    (whole : ∀ x, IsWhole (f x) ∧ IsWhole (g x)) (empty : p [] = false)
    (each : ∀ x, countLines p (f x) = countLines p (g x) + (more x).countP p) (xs : List α) :
    countLines p ("".intercalate (xs.map f)) =
      countLines p ("".intercalate (xs.map g)) + (xs.flatMap more).countP p := by
  induction xs with
  | nil => rfl
  | cons x rest ih =>
      rw [List.map_cons, List.map_cons, intercalate_empty_cons, intercalate_empty_cons,
        countLines_append (whole x).1 empty, countLines_append (whole x).2 empty, each, ih,
        List.flatMap_cons, List.countP_append]
      omega

/-- One of several texts stands among them as it is. -/
theorem exists_intercalate_eq {parts : List String} (h : s ∈ parts) :
    ∃ before after, "".intercalate parts = before ++ s ++ after := by
  induction parts with
  | nil => cases h
  | cons t rest ih =>
      rw [intercalate_empty_cons]
      rcases List.mem_cons.1 h with rfl | h
      · exact ⟨"", "".intercalate rest, by rw [String.empty_append]⟩
      · obtain ⟨before, after, heq⟩ := ih h
        refine ⟨t ++ before, after, ?_⟩
        rw [heq, String.append_assoc, String.append_assoc, String.append_assoc]

end GuidedLab.Text
