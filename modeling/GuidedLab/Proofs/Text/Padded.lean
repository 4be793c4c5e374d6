import GuidedLab.Proofs.Json.Digits

/-!
# Digits of one width

Zeros in front do not matter to what digits spell (`natural?_padded`). Numbers that have no more digits than
a width are written in exactly that width, so the first character in which two of them differ is a digit of
the same place in both. Hence texts that begin with such numbers are in the order of the numbers
(`padded_append_lt`).
-/

namespace GuidedLab.Text

variable {width m n : Nat}

theorem toList_padded (width n : Nat) :
    (padded width n).toList =
      List.replicate (width - (Nat.toDigits 10 n).length) '0' ++ Nat.toDigits 10 n := by
  rw [padded, String.toList_append, String.toList_ofList, ← String.length_toList, Nat.toList_repr]

/-- The last digit stands alone, and those before it are those of a tenth. -/
theorem toList_padded_succ (pos : 0 < width) (n : Nat) :
    (padded (width + 1) n).toList = (padded width (n / 10)).toList ++ [(n % 10).digitChar] := by
  rw [toList_padded, toList_padded, Nat.toDigits_eq_if (by omega)]
  split
  · next hn =>
      have hzero : Nat.toDigits 10 (n / 10) = ['0'] := by rw [Nat.div_eq_of_lt hn]; rfl
      obtain ⟨w, rfl⟩ := Nat.exists_eq_add_of_le' pos
      rw [hzero, Nat.mod_eq_of_lt hn, List.length_singleton, List.length_singleton,
        Nat.add_sub_cancel, Nat.add_sub_cancel, List.replicate_succ', List.append_assoc]
  · rw [List.length_append, List.length_singleton, Nat.add_sub_add_right, List.append_assoc]

/-- A number with no more digits than a width is written in that width. -/
theorem length_padded (h : (Nat.toDigits 10 n).length ≤ width) :
    (padded width n).toList.length = width := by
  rw [toList_padded, List.length_append, List.length_replicate]
  omega

theorem readDigits?_replicate_zero (k : Nat) (ds : List Char) :
    readDigits? 0 (List.replicate k '0' ++ ds) = readDigits? 0 ds := by
  induction k with
  | zero => rfl
  | succ k ih =>
      rw [List.replicate_succ, List.cons_append, readDigits?_cons]
      exact ih

/-- A number is read back from its digits with zeros in front. -/
theorem natural?_padded (width n : Nat) : natural? (padded width n).toList = some n := by
  rw [natural?.eq_def]
  split
  · next h =>
      have hpos := Nat.length_toDigits_pos (b := 10) (n := n)
      rw [toList_padded, List.append_eq_nil_iff] at h
      rw [h.2] at hpos
      cases hpos
  · rw [toList_padded, readDigits?_replicate_zero, readDigits?_toDigits]

/-- Digits are in the order of what they stand for. -/
theorem digitChar_lt : ∀ n < 10, ∀ m < n, m.digitChar < n.digitChar := by
  decide

theorem length_toDigits_div (h : (Nat.toDigits 10 n).length ≤ width + 1) (pos : 0 < width) :
    (Nat.toDigits 10 (n / 10)).length ≤ width := by
  rw [Nat.toDigits_eq_if (by omega)] at h
  split at h
  · next hn =>
      rw [Nat.div_eq_of_lt hn]
      exact pos
  · rw [List.length_append, List.length_singleton] at h
    omega

/-- Numbers of one width are in the order of their texts, whatever comes after these. -/
theorem padded_append_lt (pos : 0 < width) (hm : (Nat.toDigits 10 m).length ≤ width)
    (hn : (Nat.toDigits 10 n).length ≤ width) (h : m < n) (s t : List Char) :
    (padded width m).toList ++ s < (padded width n).toList ++ t := by
  induction width generalizing m n s t with
  | zero => cases pos
  | succ width ih =>
      cases width with
      | zero =>
          -- a single digit
          have single : ∀ {k : Nat}, (Nat.toDigits 10 k).length ≤ 0 + 1 →
              k < 10 ∧ (padded 1 k).toList = [k.digitChar] := by
            intro k hk
            rw [toList_padded, Nat.sub_eq_zero_of_le Nat.length_toDigits_pos, List.replicate_zero,
              List.nil_append]
            rw [Nat.toDigits_eq_if (by omega)] at hk ⊢
            split at hk
            · next hlt => exact ⟨hlt, if_pos hlt⟩
            · have hpos := Nat.length_toDigits_pos (b := 10) (n := k / 10)
              rw [List.length_append, List.length_singleton] at hk
              omega
          obtain ⟨-, hm⟩ := single hm
          obtain ⟨hlt, hn⟩ := single hn
          rw [hm, hn]
          exact List.cons_lt_cons_iff.2 (Or.inl (digitChar_lt n hlt m h))
      | succ width =>
          have hpos := Nat.succ_pos width
          rw [toList_padded_succ hpos, toList_padded_succ hpos, List.append_assoc, List.append_assoc]
          rcases Nat.lt_or_eq_of_le (Nat.div_le_div_right (c := 10) (Nat.le_of_lt h)) with hdiv | hdiv
          · exact ih hpos (length_toDigits_div hm hpos) (length_toDigits_div hn hpos) hdiv _ _
          · -- the digits before the last one are the same
            rw [hdiv]
            apply List.append_left_lt
            apply List.cons_lt_cons_iff.2
            exact Or.inl (digitChar_lt _ (Nat.mod_lt _ (by omega)) _ (by omega))

theorem length_toDigits_of_lt_hundred (h : n < 100) : (Nat.toDigits 10 n).length ≤ 2 :=
  (Nat.length_toDigits_le_iff (by omega) (by omega)).2 h

theorem length_toDigits_of_lt_tenThousand (h : n < 10000) : (Nat.toDigits 10 n).length ≤ 4 :=
  (Nat.length_toDigits_le_iff (by omega) (by omega)).2 h

end GuidedLab.Text
