import GuidedLab.Text.Digit

/-!
# Texts that end at a mark

A text that is followed by a mark can be told from what comes after it if the mark is not in it
(`append_mark_inj`). Digits end at every character that is no digit, and a number is determined by
its digits (`toDigits_injective`), so numbers can be keys and parts of longer texts.
-/

namespace GuidedLab.Text

/-- A text without a character ends where that character comes first. -/
theorem append_mark_inj {α : Type} {mark : α} {cs ds s t : List α} (hc : mark ∉ cs)
    (hd : mark ∉ ds) (h : cs ++ mark :: s = ds ++ mark :: t) : cs = ds ∧ s = t := by
  induction cs generalizing ds with
  | nil =>
      cases ds with
      | nil =>
          injection h with _ hs
          exact ⟨rfl, hs⟩
      | cons d ds =>
          injection h with hm
          exact absurd (hm ▸ List.mem_cons_self) hd
  | cons c cs ih =>
      cases ds with
      | nil =>
          injection h with hm
          exact absurd (hm ▸ List.mem_cons_self) hc
      | cons d ds =>
          injection h with hcd hrest
          obtain ⟨hcs, hs⟩ := ih (fun hm => hc (List.mem_cons_of_mem _ hm))
            (fun hm => hd (List.mem_cons_of_mem _ hm)) hrest
          exact ⟨by rw [hcd, hcs], hs⟩

/-- Below sixteen, the digit tells the number. -/
theorem digitChar_injective : ∀ m < 16, ∀ n < 16, m.digitChar = n.digitChar → m = n := by
  decide

theorem mem_toDigits {b n : Nat} (hb : 1 < b) {c : Char} (h : c ∈ Nat.toDigits b n) :
    ∃ k < b, c = k.digitChar := by
  induction n using Nat.strongRecOn with
  | ind n ih =>
      rw [Nat.toDigits_eq_if hb] at h
      split at h
      · next hn => exact ⟨n, hn, List.mem_singleton.1 h⟩
      · rcases List.mem_append.1 h with h | h
        · exact ih (n / b) (Nat.div_lt_self (by omega) hb) h
        · exact ⟨n % b, Nat.mod_lt _ (by omega), List.mem_singleton.1 h⟩

/-- A character that is none of the digits is not in a number. -/
theorem not_mem_toDigits {b n : Nat} (hb : 1 < b) {c : Char} (h : ∀ k < b, k.digitChar ≠ c) :
    c ∉ Nat.toDigits b n := by
  intro hc
  obtain ⟨k, hk, rfl⟩ := mem_toDigits hb hc
  exact h k hk rfl

/-- In a base up to sixteen, the digits tell the number. -/
theorem toDigits_injective {b m n : Nat} (hb : 1 < b) (hb' : b ≤ 16)
    (h : Nat.toDigits b m = Nat.toDigits b n) : m = n := by
  induction m using Nat.strongRecOn generalizing n with
  | ind m ih =>
      rw [Nat.toDigits_eq_if hb, Nat.toDigits_eq_if (n := n) hb] at h
      have hpos : ∀ k, 0 < (Nat.toDigits b k).length := fun k => Nat.length_toDigits_pos
      split at h
      · next hm =>
          split at h
          · next hn =>
              injection h with h
              exact digitChar_injective m (by omega) n (by omega) h
          · have hlen := congrArg List.length h
            rw [List.length_append, List.length_singleton, List.length_singleton] at hlen
            have := hpos (n / b)
            omega
      · next hm =>
          split at h
          · have hlen := congrArg List.length h
            rw [List.length_append, List.length_singleton, List.length_singleton] at hlen
            have := hpos (m / b)
            omega
          · obtain ⟨hdiv, hmod⟩ := List.append_inj' h rfl
            injection hmod with hmod
            have hlt : m % b < b := Nat.mod_lt _ (by omega)
            have hlt' : n % b < b := Nat.mod_lt _ (by omega)
            have hdiv := ih (m / b) (Nat.div_lt_self (by omega) hb) hdiv
            have hmod := digitChar_injective _ (by omega) _ (by omega) hmod
            rw [← Nat.div_add_mod m b, ← Nat.div_add_mod n b, hdiv, hmod]

theorem repr_injective {m n : Nat} (h : Nat.repr m = Nat.repr n) : m = n := by
  apply toDigits_injective (b := 10) (by omega) (by omega)
  rw [← Nat.toList_repr, ← Nat.toList_repr, h]

theorem repr_ne {s : String} {c : Char} (hc : c ∈ s.toList) (h : ∀ k < 10, k.digitChar ≠ c)
    (n : Nat) : Nat.repr n ≠ s := by
  intro e
  apply not_mem_toDigits (b := 10) (n := n) (by omega) h
  rw [← Nat.toList_repr, e]
  exact hc

end GuidedLab.Text
