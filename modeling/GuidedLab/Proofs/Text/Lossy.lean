import GuidedLab.Text.Lossy
import Mathlib.Algebra.Group.Nat.Defs
import Mathlib.Tactic.SplitIfs

/-!
# What is read from bytes

The bytes of a text are read as the text (`lossy_utf8`). Other bytes lose something, but not where they
stand for ASCII: a byte of ASCII is read as its character wherever it stands, so that bytes fall apart
at it as the text does (`lossy_append_cons`), and no character of ASCII is read from anything else
(`exists_mem_of_mem_lossy`, `eq_of_lossy_ascii`). The invariant behind this is about the character that
is pending: whatever bytes carry it on, it will be one of Unicode and none of ASCII (`Begun.IsSound`).
-/

namespace GuidedLab.Text

variable {b : UInt8} {x : Begun} {pending : Option Begun} {bytes rest : List UInt8}

/-- The least character that a pending one can become. -/
def Begun.least (x : Begun) : Nat := (x.bits * 64 + x.low) * 64 ^ x.after

/-- What is above all characters that a pending one can become. -/
def Begun.bound (x : Begun) : Nat := (x.bits * 64 + x.high + 1) * 64 ^ x.after

/-- A pending character that becomes one of Unicode and none of ASCII. -/
structure Begun.IsSound (x : Begun) : Prop where
  wide : 128 ≤ x.least
  scalar : ∀ n, x.least ≤ n → n < x.bound → n.isValidChar

theorem toNat_ofNat_of_isValidChar {n : Nat} (h : n.isValidChar) : (Char.ofNat n).toNat = n := by
  rw [Char.ofNat, dif_pos h]
  rfl

theorem toNat_replacement : 128 ≤ replacement.toNat := by decide

theorem isSound_of_begun? (h : begun? b = some x) : x.IsSound := by
  have hb := b.toNat_lt
  rw [begun?] at h
  generalize b.toNat = n at h hb
  -- The first byte alone tells the range: two, three or four bytes, and the odd ranges of four of them.
  split_ifs at h
  all_goals
    obtain rfl := Option.some.inj h
    refine ⟨?_, ?_⟩
    · simp only [Begun.least]
      omega
    · intro m
      simp only [Begun.least, Begun.bound, Nat.isValidChar]
      omega

/-- What a byte brings that carries a character on: a character above ASCII, or a pending one again. -/
theorem Begun.IsSound.carriedOn (h : x.IsSound) (takes : x.takes b = true) :
    (∃ c : Char, x.carriedOn b = ⟨[c], none⟩ ∧ 128 ≤ c.toNat) ∨
      ∃ y : Begun, x.carriedOn b = ⟨[], some y⟩ ∧ y.IsSound := by
  obtain ⟨bits, after, low, high⟩ := x
  obtain ⟨hlow, hhigh⟩ : 0x80 + low ≤ b.toNat ∧ b.toNat ≤ 0x80 + high := by
    simpa [Begun.takes] using takes
  obtain ⟨hwide, hscalar⟩ := h
  simp only [Begun.least, Begun.bound] at hwide hscalar
  have hle : bits * 64 + low ≤ bits * 64 + (b.toNat - 0x80) := by omega
  have hlt : bits * 64 + (b.toNat - 0x80) + 1 ≤ bits * 64 + high + 1 := by omega
  rw [Begun.carriedOn]
  generalize bits * 64 + (b.toNat - 0x80) = value at hle hlt
  cases after with
  | zero =>
      have hvalid : value.isValidChar := hscalar value (by omega) (by omega)
      refine Or.inl ⟨Char.ofNat value, rfl, ?_⟩
      rw [toNat_ofNat_of_isValidChar hvalid]
      omega
  | succ n =>
      have hleast : (value * 64 + 0) * 64 ^ n = value * 64 ^ (n + 1) := by
        rw [Nat.add_zero, Nat.pow_succ, Nat.mul_assoc, Nat.mul_comm 64]
      have hbound : (value * 64 + 63 + 1) * 64 ^ n = (value + 1) * 64 ^ (n + 1) := by
        rw [Nat.pow_succ, Nat.mul_comm (64 ^ n), ← Nat.mul_assoc]
        congr 1
        omega
      have hup := Nat.mul_le_mul_right (64 ^ (n + 1)) hle
      have hdown := Nat.mul_le_mul_right (64 ^ (n + 1)) hlt
      refine Or.inr ⟨_, rfl, ?_, ?_⟩
      · rw [Begun.least, hleast]
        omega
      · intro m hm hm'
        rw [Begun.least, hleast] at hm
        rw [Begun.bound, hbound] at hm'
        exact hscalar m (by omega) (by omega)

theorem isSound_of_none : ∀ x : Begun, (none : Option Begun) = some x → x.IsSound := nofun

/-- What a byte brings where no character is begun. -/
theorem readFirst_cases (b : UInt8) :
    (b.toNat < 0x80 ∧ readFirst b = ⟨[Char.ofNat b.toNat], none⟩) ∨
      readFirst b = ⟨[replacement], none⟩ ∨
      ∃ y : Begun, readFirst b = ⟨[], some y⟩ ∧ y.IsSound := by
  rw [readFirst]
  split
  · next h => exact Or.inl ⟨h, rfl⟩
  · split
    · next y hy => exact Or.inr (Or.inr ⟨y, rfl, isSound_of_begun? hy⟩)
    · exact Or.inr (Or.inl rfl)

theorem readFirst_ascii (h : b.toNat < 0x80) : readFirst b = ⟨[Char.ofNat b.toNat], none⟩ :=
  if_pos h

theorem toNat_ofNat_of_lt {n : Nat} (h : n < 0x80) : (Char.ofNat n).toNat = n :=
  toNat_ofNat_of_isValidChar (Or.inl (by omega))

@[simp] theorem lossyFrom_nil (pending : Option Begun) :
    lossyFrom pending [] = if pending.isSome then [replacement] else [] := rfl

theorem lossyFrom_cons (pending : Option Begun) (b : UInt8) (rest : List UInt8) :
    lossyFrom pending (b :: rest) =
      (read pending b).settled ++ lossyFrom (read pending b).pending rest := rfl

/-- A byte of ASCII is read as its character wherever it stands. -/
theorem lossyFrom_append_cons (pending : Option Begun) (bytes : List UInt8) (h : b.toNat < 0x80)
    (rest : List UInt8) : lossyFrom pending (bytes ++ b :: rest) =
      lossyFrom pending bytes ++ Char.ofNat b.toNat :: lossy rest := by
  induction bytes generalizing pending with
  | nil =>
      rw [List.nil_append, lossyFrom_cons, lossyFrom_nil]
      cases pending with
      | none =>
          rw [read, readFirst_ascii h]
          rfl
      | some x =>
          have hnot : x.takes b = false := by
            rw [Begun.takes, Bool.and_eq_false_iff]
            exact Or.inl (decide_eq_false (by omega))
          rw [read, hnot, if_neg Bool.false_ne_true, readFirst_ascii h]
          rfl
  | cons d bytes ih =>
      rw [List.cons_append, lossyFrom_cons, ih, lossyFrom_cons, List.append_assoc]

theorem lossy_append_cons (bytes : List UInt8) (h : b.toNat < 0x80) (rest : List UInt8) :
    lossy (bytes ++ b :: rest) = lossy bytes ++ Char.ofNat b.toNat :: lossy rest :=
  lossyFrom_append_cons none bytes h rest

/-- What one byte settles and leaves pending: its own character if it is one of ASCII, and none of ASCII
otherwise. -/
theorem read_cases (sound : ∀ x, pending = some x → x.IsSound) (b : UInt8) :
    (∀ c ∈ (read pending b).settled, c.toNat < 128 →
      b.toNat < 0x80 ∧ c = Char.ofNat b.toNat) ∧
    ∀ x, (read pending b).pending = some x → x.IsSound := by
  have first : (∀ c ∈ (readFirst b).settled, c.toNat < 128 →
      b.toNat < 0x80 ∧ c = Char.ofNat b.toNat) ∧
      ∀ x, (readFirst b).pending = some x → x.IsSound := by
    rcases readFirst_cases b with ⟨hb, hr⟩ | hr | ⟨y, hr, hy⟩
    · rw [hr]
      exact ⟨fun c hc _ => ⟨hb, List.mem_singleton.1 hc⟩, nofun⟩
    · rw [hr]
      refine ⟨fun c hc hlt => ?_, nofun⟩
      rw [List.mem_singleton.1 hc] at hlt
      exact absurd toNat_replacement (Nat.not_le_of_lt hlt)
    · rw [hr]
      refine ⟨nofun, fun z hz => ?_⟩
      cases hz
      exact hy
  cases pending with
  | none => exact first
  | some x =>
      rw [read]
      split
      · next takes =>
          rcases (sound x rfl).carriedOn takes with ⟨c, hr, hc⟩ | ⟨y, hr, hy⟩
          · rw [hr]
            refine ⟨fun d hd hlt => ?_, nofun⟩
            rw [List.mem_singleton.1 hd] at hlt
            exact absurd hc (Nat.not_le_of_lt hlt)
          · rw [hr]
            refine ⟨nofun, fun z hz => ?_⟩
            cases hz
            exact hy
      · refine ⟨fun c hc hlt => ?_, first.2⟩
        rcases List.mem_cons.1 hc with rfl | hc
        · exact absurd toNat_replacement (Nat.not_le_of_lt hlt)
        · exact first.1 c hc hlt

/-- A character of ASCII is read from its own byte only. -/
theorem exists_mem_of_mem_lossyFrom (sound : ∀ x, pending = some x → x.IsSound) {c : Char}
    (h : c ∈ lossyFrom pending bytes) (ascii : c.toNat < 128) :
    ∃ b ∈ bytes, b.toNat = c.toNat := by
  induction bytes generalizing pending with
  | nil =>
      rw [lossyFrom_nil] at h
      split at h
      · rw [List.mem_singleton.1 h] at ascii
        exact absurd toNat_replacement (Nat.not_le_of_lt ascii)
      · cases h
  | cons b rest ih =>
      obtain ⟨hsettled, hpending⟩ := read_cases sound b
      rw [lossyFrom_cons] at h
      rcases List.mem_append.1 h with h | h
      · obtain ⟨hb, rfl⟩ := hsettled c h ascii
        exact ⟨b, List.mem_cons_self, (toNat_ofNat_of_lt hb).symm⟩
      · obtain ⟨d, hd, hc⟩ := ih hpending h
        exact ⟨d, List.mem_cons_of_mem _ hd, hc⟩

theorem exists_mem_of_mem_lossy {c : Char} (h : c ∈ lossy bytes) (ascii : c.toNat < 128) :
    ∃ b ∈ bytes, b.toNat = c.toNat :=
  exists_mem_of_mem_lossyFrom isSound_of_none h ascii

/-- Bytes that are read as characters of ASCII are these characters, and nothing was pending. -/
theorem eq_of_lossyFrom_ascii (sound : ∀ x, pending = some x → x.IsSound)
    (ascii : ∀ c ∈ lossyFrom pending bytes, c.toNat < 128) :
    pending = none ∧ lossyFrom pending bytes = bytes.map fun b => Char.ofNat b.toNat := by
  induction bytes generalizing pending with
  | nil =>
      cases pending with
      | none => exact ⟨rfl, rfl⟩
      | some x => exact absurd toNat_replacement (Nat.not_le_of_lt (ascii _ List.mem_cons_self))
  | cons b rest ih =>
      rw [lossyFrom_cons] at ascii ⊢
      obtain ⟨hnone, hrest⟩ := ih (read_cases sound b).2
        fun c hc => ascii c (List.mem_append_right _ hc)
      have hsettled : ∀ c ∈ (read pending b).settled, c.toNat < 128 :=
        fun c hc => ascii c (List.mem_append_left _ hc)
      cases pending with
      | none =>
          rw [hrest, List.map_cons]
          rcases readFirst_cases b with ⟨hb, hr⟩ | hr | ⟨y, hr, -⟩
          · exact ⟨rfl, by rw [read, hr]; rfl⟩
          · rw [read, hr] at hsettled
            exact absurd toNat_replacement (Nat.not_le_of_lt (hsettled _ List.mem_cons_self))
          · rw [read, hr] at hnone
            cases hnone
      | some x =>
          rw [read] at hnone hsettled
          split at hnone
          · next takes =>
              rw [if_pos takes] at hsettled
              rcases (sound x rfl).carriedOn takes with ⟨c, hr, hc⟩ | ⟨y, hr, -⟩
              · rw [hr] at hsettled
                exact absurd hc (Nat.not_le_of_lt (hsettled c List.mem_cons_self))
              · rw [hr] at hnone
                cases hnone
          · next hnot =>
              rw [if_neg hnot] at hsettled
              exact absurd toNat_replacement (Nat.not_le_of_lt (hsettled _ List.mem_cons_self))

theorem eq_of_lossy_ascii (ascii : ∀ c ∈ lossy bytes, c.toNat < 128) :
    lossy bytes = bytes.map fun b => Char.ofNat b.toNat :=
  (eq_of_lossyFrom_ascii isSound_of_none ascii).2

/-! ### Bytes of a text -/

/-- The first bytes of characters of two, three and four bytes. -/
theorem begun?_two {n : Nat} (least : 2 ≤ n) (most : n < 32) :
    begun? (UInt8.ofNat (n + 192)) = some ⟨n, 0, 0, 63⟩ := by
  rw [begun?, UInt8.toNat_ofNat_of_lt' (show n + 192 < 256 by omega)]
  rw [if_neg (by omega), if_pos (by omega), Nat.add_sub_cancel]

theorem begun?_three {n : Nat} (most : n < 16) : begun? (UInt8.ofNat (n + 224)) =
    some ⟨n, 1, if n = 0 then 32 else 0, if n = 13 then 31 else 63⟩ := by
  rw [begun?, UInt8.toNat_ofNat_of_lt' (show n + 224 < 256 by omega)]
  rw [if_neg (by omega), if_neg (by omega), if_pos (by omega), Nat.add_sub_cancel]
  have hfirst : n + 224 = 0xE0 ↔ n = 0 := by omega
  have hodd : n + 224 = 0xED ↔ n = 13 := by omega
  simp only [hfirst, hodd]

theorem begun?_four {n : Nat} (most : n < 5) : begun? (UInt8.ofNat (n + 240)) =
    some ⟨n, 2, if n = 0 then 16 else 0, if n = 4 then 15 else 63⟩ := by
  rw [begun?, UInt8.toNat_ofNat_of_lt' (show n + 240 < 256 by omega)]
  rw [if_neg (by omega), if_neg (by omega), if_neg (by omega), if_pos (by omega),
    Nat.add_sub_cancel]
  have hfirst : n + 240 = 0xF0 ↔ n = 0 := by omega
  have hlast : n + 240 = 0xF4 ↔ n = 4 := by omega
  simp only [hfirst, hlast]

theorem lossy_cons_of_begun? (h : begun? b = some x) (rest : List UInt8) :
    lossy (b :: rest) = lossyFrom (some x) rest := by
  have hnot : ¬ b.toNat < 0x80 := by
    intro hb
    rw [begun?, if_pos (by omega)] at h
    cases h
  rw [lossy, lossyFrom_cons, read, readFirst, if_neg hnot, h]
  rfl

/-- The bits of a byte that carries a character on. -/
theorem read_of_takes {bits after low high m : Nat} (hlow : low ≤ m) (hhigh : m ≤ high)
    (most : m < 64) : read (some ⟨bits, after, low, high⟩) (UInt8.ofNat (m + 128)) =
      match after with
      | 0 => ⟨[Char.ofNat (bits * 64 + m)], none⟩
      | k + 1 => ⟨[], some ⟨bits * 64 + m, k, 0, 63⟩⟩ := by
  have hbyte : (UInt8.ofNat (m + 128)).toNat = m + 128 :=
    UInt8.toNat_ofNat_of_lt' (show m + 128 < 256 by omega)
  have htakes : Begun.takes ⟨bits, after, low, high⟩ (UInt8.ofNat (m + 128)) = true := by
    rw [Begun.takes, hbyte, Bool.and_eq_true]
    exact ⟨decide_eq_true (by dsimp only; omega), decide_eq_true (by dsimp only; omega)⟩
  have hbits : m + 128 - 0x80 = m := Nat.add_sub_cancel ..
  cases after <;> simp only [read, if_pos htakes, Begun.carriedOn, hbyte, hbits]

theorem lossyFrom_last {bits low high m : Nat} (hlow : low ≤ m) (hhigh : m ≤ high)
    (most : m < 64) (rest : List UInt8) :
    lossyFrom (some ⟨bits, 0, low, high⟩) (UInt8.ofNat (m + 128) :: rest) =
      Char.ofNat (bits * 64 + m) :: lossy rest := by
  rw [lossyFrom_cons, read_of_takes hlow hhigh most]
  rfl

theorem lossyFrom_next {bits k low high m : Nat} (hlow : low ≤ m) (hhigh : m ≤ high)
    (most : m < 64) (rest : List UInt8) :
    lossyFrom (some ⟨bits, k + 1, low, high⟩) (UInt8.ofNat (m + 128) :: rest) =
      lossyFrom (some ⟨bits * 64 + m, k, 0, 63⟩) rest := by
  rw [lossyFrom_cons, read_of_takes hlow hhigh most]
  rfl

/-- The bytes of a character are read as the character. -/
theorem lossy_utf8EncodeChar_append (c : Char) (rest : List UInt8) :
    lossy (String.utf8EncodeChar c ++ rest) = c :: lossy rest := by
  have hvalid : c.val.toNat.isValidChar := c.valid
  have hself : Char.ofNat c.val.toNat = c := Char.ofNat_toNat c
  rw [String.utf8EncodeChar]
  generalize c.val.toNat = n at hvalid hself ⊢
  subst hself
  have hmost : n < 0x110000 := by
    rcases hvalid with h | h
    · omega
    · exact h.2
  split
  · next h =>
      have hbyte : (UInt8.ofNat n).toNat = n := UInt8.toNat_ofNat_of_lt' (show n < 256 by omega)
      have hread : readFirst (UInt8.ofNat n) = ⟨[Char.ofNat n], none⟩ := by
        rw [readFirst_ascii (by omega), hbyte]
      rw [List.singleton_append, lossy, lossyFrom_cons, read, hread]
      rfl
  split
  · next h h' =>
      have hsum : n / 64 % 32 * 64 + n % 64 = n := by omega
      rw [List.cons_append, List.singleton_append,
        lossy_cons_of_begun? (begun?_two (by omega) (by omega)),
        lossyFrom_last (Nat.zero_le _) (by omega) (by omega), hsum]
  split
  · next h h' h'' =>
      have hsum : (n / 4096 % 16 * 64 + n / 64 % 64) * 64 + n % 64 = n := by omega
      -- the shortest form and the surrogates are what the odd ranges keep out
      have hlow : (if n / 4096 % 16 = 0 then 32 else 0) ≤ n / 64 % 64 := by
        split <;> omega
      have hhigh : n / 64 % 64 ≤ if n / 4096 % 16 = 13 then 31 else 63 := by
        rcases hvalid with hv | hv <;> split <;> omega
      rw [List.cons_append, List.cons_append, List.singleton_append,
        lossy_cons_of_begun? (begun?_three (by omega)), lossyFrom_next hlow hhigh (by omega),
        lossyFrom_last (Nat.zero_le _) (by omega) (by omega), hsum]
  · next h h' h'' =>
      have hsum : ((n / 262144 % 8 * 64 + n / 4096 % 64) * 64 + n / 64 % 64) * 64 + n % 64 = n := by
        omega
      have hlow : (if n / 262144 % 8 = 0 then 16 else 0) ≤ n / 4096 % 64 := by
        split <;> omega
      have hhigh : n / 4096 % 64 ≤ if n / 262144 % 8 = 4 then 15 else 63 := by
        split <;> omega
      rw [List.cons_append, List.cons_append, List.cons_append, List.singleton_append,
        lossy_cons_of_begun? (begun?_four (by omega)), lossyFrom_next hlow hhigh (by omega),
        lossyFrom_next (Nat.zero_le _) (by omega) (by omega),
        lossyFrom_last (Nat.zero_le _) (by omega) (by omega), hsum]

/-- The bytes of a text are read as the text. -/
theorem lossy_utf8 (cs : List Char) : lossy (cs.flatMap String.utf8EncodeChar) = cs := by
  induction cs with
  | nil => rfl
  | cons c cs ih => rw [List.flatMap_cons, lossy_utf8EncodeChar_append, ih]

-- of a character that breaks off one replacement is left, and the byte after it is read on its own
example : lossy [0x65, 0xE2, 0x82, 0x2E, 0xFF] = ['e', replacement, '.', replacement] := by
  decide

end GuidedLab.Text
