/-!
# Splitting at a separator

`pieces sep cs` are the runs of characters between the separators, so there is always one more piece
than separators, and pieces next to each other may be empty. `joined sep` puts a separator between
pieces. The two undo each other: joining the pieces gives the characters back, and splitting what was
joined gives the pieces back when none of them holds the separator. `split` and `join` are the same
on texts.
-/

namespace GuidedLab.Text

/-- The runs of characters between the separators. -/
def pieces (sep : Char) : List Char → List (List Char)
  | [] => [[]]
  | c :: cs =>
    match pieces sep cs with
    | [] => [[c]]
    | p :: ps => if c = sep then [] :: p :: ps else (c :: p) :: ps

/-- The pieces with a separator between each two. -/
def joined (sep : Char) : List (List Char) → List Char
  | [] => []
  | [p] => p
  | p :: q :: ps => p ++ sep :: joined sep (q :: ps)

/-- The parts of a text between the separators. -/
def split (sep : Char) (s : String) : List String :=
  (pieces sep s.toList).map String.ofList

/-- The texts with a separator between each two. -/
def join (sep : Char) (parts : List String) : String :=
  String.ofList (joined sep (parts.map String.toList))

theorem pieces_ne_nil (sep : Char) (cs : List Char) : pieces sep cs ≠ [] := by
  cases cs with
  | nil => simp [pieces]
  | cons c cs =>
    rw [pieces]
    split
    · simp
    · split <;> simp

@[simp] theorem joined_nil (sep : Char) : joined sep [] = [] := rfl

@[simp] theorem joined_singleton (sep : Char) (p : List Char) : joined sep [p] = p := rfl

theorem joined_cons_cons (sep : Char) (p q : List Char) (ps : List (List Char)) :
    joined sep (p :: q :: ps) = p ++ sep :: joined sep (q :: ps) := rfl

/-- A character put in front of the first piece is put in front of the joined text. -/
theorem joined_cons_head (sep c : Char) (p : List Char) (ps : List (List Char)) :
    joined sep ((c :: p) :: ps) = c :: joined sep (p :: ps) := by
  cases ps <;> rfl

/-- Nothing is lost by splitting. -/
theorem joined_pieces (sep : Char) (cs : List Char) : joined sep (pieces sep cs) = cs := by
  induction cs with
  | nil => rfl
  | cons c cs ih =>
    rw [pieces]
    split
    · next h => exact absurd h (pieces_ne_nil sep cs)
    · next p ps h =>
      rw [h] at ih
      split
      · next hc => rw [joined_cons_cons, ih, hc]; rfl
      · rw [joined_cons_head, ih]

/-- A piece never holds the separator. -/
theorem not_mem_of_mem_pieces {sep : Char} {cs p : List Char} (h : p ∈ pieces sep cs) : sep ∉ p := by
  induction cs generalizing p with
  | nil => simp_all [pieces]
  | cons c cs ih =>
    rw [pieces] at h
    split at h
    · next hn => exact absurd hn (pieces_ne_nil sep cs)
    · next q qs hq =>
      split at h
      · rcases List.mem_cons.1 h with rfl | h
        · simp
        · exact ih (hq ▸ h)
      · next hc =>
        rcases List.mem_cons.1 h with rfl | h
        · have := ih (p := q) (by simp [hq])
          simp [Ne.symm hc, this]
        · exact ih (by rw [hq]; exact List.mem_cons_of_mem _ h)

/-- A piece holds characters of the whole only. -/
theorem mem_of_mem_pieces {sep c : Char} {cs p : List Char} (h : p ∈ pieces sep cs) (hc : c ∈ p) :
    c ∈ cs := by
  induction cs generalizing p with
  | nil =>
    rw [pieces, List.mem_singleton] at h
    exact h ▸ hc
  | cons d cs ih =>
    obtain ⟨q, qs, hq⟩ := List.exists_cons_of_ne_nil (pieces_ne_nil sep cs)
    rw [hq] at ih
    rw [pieces, hq] at h
    dsimp only at h
    split at h
    · rcases List.mem_cons.1 h with rfl | h
      · cases hc
      · exact List.mem_cons_of_mem _ (ih h hc)
    · rcases List.mem_cons.1 h with rfl | h
      · rcases List.mem_cons.1 hc with rfl | hc
        · exact List.mem_cons_self
        · exact List.mem_cons_of_mem _ (ih List.mem_cons_self hc)
      · exact List.mem_cons_of_mem _ (ih (List.mem_cons_of_mem _ h) hc)

theorem pieces_of_not_mem {sep : Char} {cs : List Char} (h : sep ∉ cs) : pieces sep cs = [cs] := by
  induction cs with
  | nil => rfl
  | cons c cs ih =>
    have hc : c ≠ sep := fun e => h (e ▸ List.mem_cons_self)
    rw [pieces, ih (fun m => h (List.mem_cons_of_mem _ m))]
    simp [hc]

/-- At a separator the pieces fall into those before and those after it. -/
theorem pieces_append (sep : Char) (xs ys : List Char) :
    pieces sep (xs ++ sep :: ys) = pieces sep xs ++ pieces sep ys := by
  induction xs with
  | nil =>
    obtain ⟨p, ps, h⟩ := List.exists_cons_of_ne_nil (pieces_ne_nil sep ys)
    simp [pieces, h]
  | cons c xs ih =>
    obtain ⟨p, ps, h⟩ := List.exists_cons_of_ne_nil (pieces_ne_nil sep xs)
    rw [List.cons_append, pieces, pieces, ih, h]
    simp only [List.cons_append]
    split <;> rfl

theorem pieces_append_cons {sep : Char} {p : List Char} (h : sep ∉ p) (cs : List Char) :
    pieces sep (p ++ sep :: cs) = p :: pieces sep cs := by
  rw [pieces_append, pieces_of_not_mem h, List.singleton_append]

/-- Splitting what was joined gives the pieces back, if none of them holds the separator. -/
theorem pieces_joined {sep : Char} {ps : List (List Char)} (hne : ps ≠ [])
    (h : ∀ p ∈ ps, sep ∉ p) : pieces sep (joined sep ps) = ps := by
  induction ps with
  | nil => exact absurd rfl hne
  | cons p ps ih =>
    cases ps with
    | nil => exact pieces_of_not_mem (h p (by simp))
    | cons q qs =>
      rw [joined_cons_cons, pieces_append_cons (h p (by simp)),
        ih (by simp) fun r hr => h r (List.mem_cons_of_mem _ hr)]

/-- Joining the parts of a text gives the text. -/
theorem join_split (sep : Char) (s : String) : join sep (split sep s) = s := by
  have hid : (String.toList ∘ String.ofList) = id := by funext l; simp
  rw [join, split, List.map_map, hid, List.map_id, joined_pieces, String.ofList_toList]

/-- Splitting joined texts gives the texts, if none of them holds the separator. -/
theorem split_join {sep : Char} {parts : List String} (hne : parts ≠ [])
    (h : ∀ s ∈ parts, sep ∉ s.toList) : split sep (join sep parts) = parts := by
  have hid : (String.ofList ∘ String.toList) = id := by funext s; simp
  rw [join, split, String.toList_ofList, pieces_joined (by simpa using hne) (by simpa using h),
    List.map_map, hid, List.map_id]

end GuidedLab.Text
