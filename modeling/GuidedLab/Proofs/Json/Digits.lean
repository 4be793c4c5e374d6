import GuidedLab.Archive.Text
import GuidedLab.Proofs.Text.Marked

/-!
# Numbers are read back from their digits

The digits of a number, without a zero in front, are read as that number, and an integer within 64 bits is
read back from its text if nothing that could belong to a number follows (`Json.Ends`). Blanks in front of
values and members do not matter.
-/

namespace GuidedLab

namespace Text

theorem digitValue?_digitChar : ∀ k < 10, digitValue? k.digitChar = some k := by
  decide

theorem readDigits?_toDigits (n : Nat) : readDigits? 0 (Nat.toDigits 10 n) = some n := by
  induction n using Nat.strongRecOn with
  | ind n ih =>
      rw [Nat.toDigits_eq_if (by omega)]
      split
      · next hn =>
          rw [readDigits?_cons, digitValue?_digitChar n hn]
          simp
      · rw [readDigits?_append, ih (n / 10) (by omega)]
        dsimp only [Option.bind_some]
        rw [readDigits?_cons, digitValue?_digitChar (n % 10) (by omega)]
        dsimp only [Option.bind_some, readDigits?_nil]
        congr 1
        omega

/-- A number is read back from its digits. -/
theorem natural?_toDigits (n : Nat) : natural? (Nat.toDigits 10 n) = some n := by
  rw [natural?.eq_def]
  split
  · next h =>
      have := Nat.length_toDigits_pos (b := 10) (n := n)
      rw [h] at this
      cases this
  · exact readDigits?_toDigits n

theorem isDigit_of_mem_toDigits {n : Nat} {c : Char} (h : c ∈ Nat.toDigits 10 n) :
    isDigit c = true := by
  obtain ⟨k, hk, rfl⟩ := mem_toDigits (by omega) h
  rw [isDigit, digitValue?_digitChar k hk]
  rfl

/-- Only zero has a zero in front. -/
theorem toDigits_eq_zero_cons {n : Nat} {ds : List Char} (h : Nat.toDigits 10 n = '0' :: ds) :
    ds = [] := by
  induction n using Nat.strongRecOn generalizing ds with
  | ind n ih =>
      rw [Nat.toDigits_eq_if (by omega)] at h
      split at h
      · injection h with _ h
        exact h.symm
      · next hn =>
          cases hd : Nat.toDigits 10 (n / 10) with
          | nil =>
              have := Nat.length_toDigits_pos (b := 10) (n := n / 10)
              rw [hd] at this
              cases this
          | cons c cs =>
              rw [hd] at h
              injection h with hc hcs
              subst hc
              have hnil : cs = [] := ih (n / 10) (by omega) hd
              subst hnil
              have hzero : n / 10 = 0 := by
                have := natural?_toDigits (n / 10)
                rw [hd] at this
                exact (Option.some.inj this).symm
              omega

end Text

namespace Json

/-- What comes next cannot be part of a number. -/
def Ends (rest : List Char) : Prop :=
  ∀ c ∈ rest.head?, Text.isDigit c = false ∧ c ≠ '.' ∧ c ≠ 'e' ∧ c ≠ 'E'

theorem skipBlanks_of_head {c : Char} (h : isBlank c = false) (rest : List Char) :
    skipBlanks (c :: rest) = c :: rest := by
  rw [skipBlanks, List.dropWhile_cons_of_neg (by rw [h]; exact Bool.false_ne_true)]

/-- Blanks in front of anything are skipped. -/
theorem skipBlanks_append {blanks : List Char} (h : ∀ c ∈ blanks, isBlank c = true) (rest : List Char) :
    skipBlanks (blanks ++ rest) = skipBlanks rest := by
  rw [skipBlanks, List.dropWhile_append_of_pos h, skipBlanks]

/-- No blank can be part of a number. -/
theorem Ends.of_blanks {blanks rest : List Char} (h : ∀ c ∈ blanks, isBlank c = true)
    (hr : Ends rest) : Ends (blanks ++ rest) := by
  cases blanks with
  | nil => exact hr
  | cons b blanks =>
      intro c hc
      cases hc
      have hb := h b List.mem_cons_self
      simp only [isBlank, Bool.or_eq_true, decide_eq_true_eq] at hb
      rcases hb with ((rfl | rfl) | rfl) | rfl <;> decide

theorem skipBlanks_idem (input : List Char) : skipBlanks (skipBlanks input) = skipBlanks input := by
  cases h : skipBlanks input with
  | nil => rfl
  | cons c rest =>
      have hne : input.dropWhile isBlank ≠ [] := by
        rw [← skipBlanks, h]
        exact List.cons_ne_nil c rest
      have hc := List.head_dropWhile_not isBlank hne
      have hhead : (input.dropWhile isBlank).head hne = c := by
        have : input.dropWhile isBlank = c :: rest := h
        simp [this]
      rw [hhead] at hc
      exact skipBlanks_of_head hc rest

/-- Blanks in front of a value do not matter. -/
theorem value?_skipBlanks (n : Nat) (input : List Char) :
    value? n (skipBlanks input) = value? n input := by
  cases n with
  | zero => rw [value?, valueWith?, valueWith?, skipBlanks_idem]
  | succ n => rw [value?, valueWith?, valueWith?, skipBlanks_idem]

/-- Nor do blanks in front of a member. -/
theorem member?_skipBlanks (value? : List Char → Option (Value × List Char)) (input : List Char) :
    member? value? (skipBlanks input) = member? value? input := by
  rw [member?, member?, name?, name?, skipBlanks_idem]

/-- An object is read from a text that starts with its brace. -/
theorem value?_brace (n : Nat) (rest : List Char) :
    value? (n + 1) ('\x7b' :: rest) =
      (container? (member? (value? n)) '\x7d' rest).map fun r => (.object r.1, r.2) := by
  rw [value?, valueWith?, skipBlanks_of_head (by decide)]
  rfl

section Listed

variable {α : Type} {item? : List Char → Option (α × List Char)} {close : Char}
  {input rest tail : List Char} {a : α}

theorem listed?_last (hitem : item? input = some (a, rest)) (h : skipBlanks rest = close :: tail)
    (m : Nat) : listed? item? close (m + 1) input = some ([a], tail) := by
  simp [listed?, hitem, h]

theorem listed?_more (hitem : item? input = some (a, rest)) (h : skipBlanks rest = ',' :: tail)
    (hclose : close ≠ ',') (m : Nat) :
    listed? item? close (m + 1) input =
      (listed? item? close m tail).map fun r => (a :: r.1, r.2) := by
  simp [listed?, hitem, h, hclose.symm]

end Listed

namespace Number

theorem digits_append {ds rest : List Char} (h : ∀ c ∈ ds, Text.isDigit c = true) (hr : Ends rest) :
    digits (ds ++ rest) = (ds, rest) := by
  have hstop : rest.takeWhile Text.isDigit = [] ∧ rest.dropWhile Text.isDigit = rest := by
    cases rest with
    | nil => exact ⟨rfl, rfl⟩
    | cons c rest =>
        obtain ⟨hc, -⟩ := hr c rfl
        simp [hc]
  rw [digits, List.takeWhile_append_of_pos h, List.dropWhile_append_of_pos h, hstop.1, hstop.2,
    List.append_nil]

theorem integerDigits?_toDigits (n : Nat) {rest : List Char} (hr : Ends rest) :
    integerDigits? (Nat.toDigits 10 n ++ rest) = some (Nat.toDigits 10 n, rest) := by
  rw [integerDigits?, digits_append (fun _ => Text.isDigit_of_mem_toDigits) hr]
  dsimp only
  split
  · next h =>
      have := Nat.length_toDigits_pos (b := 10) (n := n)
      rw [h] at this
      cases this
  · rfl
  · next hne h => exact absurd (Text.toDigits_eq_zero_cons h) hne
  · rfl

theorem fraction?_of_ends {rest : List Char} (hr : Ends rest) : fraction? rest = some ([], rest) := by
  rw [fraction?.eq_def]
  split
  · exact absurd rfl (hr '.' rfl).2.1
  · rfl

theorem exponent?_of_ends {rest : List Char} (hr : Ends rest) : exponent? rest = some (none, rest) := by
  cases rest with
  | nil => rfl
  | cons c rest =>
      obtain ⟨-, -, he, hE⟩ := hr c rfl
      rw [exponent?, if_neg (fun h => h.elim he hE)]

/-- The number of a sign and the characters after it. -/
def unsigned? (negative : Bool) (input : List Char) : Option (Number × List Char) := do
  let (whole, input) ← integerDigits? input
  let (fraction, input) ← fraction? input
  let (exponent, input) ← exponent? input
  let n ← ofParts? negative whole fraction exponent
  return (n, input)

theorem read?_minus (input : List Char) : read? ('-' :: input) = unsigned? true input := rfl

theorem read?_of_ne_minus {c : Char} (h : c ≠ '-') (input : List Char) :
    read? (c :: input) = unsigned? false (c :: input) := by
  rw [read?.eq_def]
  split
  next negative tail hsign =>
  split at hsign
  · next hc =>
      injection hc with hc _
      exact absurd hc h
  · cases hsign
    rfl

/-- Digits that nothing of a number follows spell an integer. -/
theorem unsigned?_toDigits (negative : Bool) (n : Nat) {rest : List Char} (hr : Ends rest) :
    unsigned? negative (Nat.toDigits 10 n ++ rest) =
      (ofParts? negative (Nat.toDigits 10 n) [] none).map fun k => (k, rest) := by
  rw [unsigned?, integerDigits?_toDigits n hr]
  show ((fraction? rest).bind _) = _
  rw [fraction?_of_ends hr]
  show ((exponent? rest).bind _) = _
  rw [exponent?_of_ends hr]
  show ((ofParts? negative (Nat.toDigits 10 n) [] none).bind _) = _
  cases ofParts? negative (Nat.toDigits 10 n) [] none <;> rfl

theorem ofParts?_minus {n : Nat} (h : 0 < n) (hmin : Int64.minValue.toInt ≤ -(n : Int)) :
    ofParts? true (Nat.toDigits 10 n) [] none = some (.integer (-(n : Int))) := by
  have hfits : 0 < n ∧ Int64.minValue.toInt ≤ -(n : Int) := ⟨h, hmin⟩
  rw [ofParts?, Text.natural?_toDigits]
  exact if_pos hfits

theorem ofParts?_plain {n : Nat} (h : n ≤ largestSignificand) :
    ofParts? false (Nat.toDigits 10 n) [] none = some (.integer n) := by
  rw [ofParts?, Text.natural?_toDigits]
  simp [h]

/-- An integer within 64 bits is read back from its text. -/
theorem read?_decimal (n : Int64) {rest : List Char} (hr : Ends rest) :
    read? (Archive.decimal n.toInt ++ rest) = some (.integer n.toInt, rest) := by
  have hmin : Int64.minValue.toInt ≤ n.toInt := Int64.minValue_le_toInt n
  have hmax : n.toInt < 2 ^ 63 := Int64.toInt_lt n
  rw [Archive.decimal, Nat.toList_repr]
  split
  · next hneg =>
      have hback : -(n.toInt.natAbs : Int) = n.toInt := by omega
      rw [List.cons_append, read?_minus, unsigned?_toDigits true _ hr,
        ofParts?_minus (by omega) (by omega), hback]
      rfl
  · next hpos =>
      have hback : (n.toInt.natAbs : Int) = n.toInt := by omega
      have hle : n.toInt.natAbs ≤ largestSignificand := by
        have : largestSignificand = 18446744073709551615 := by decide
        omega
      have hread : read? (Nat.toDigits 10 n.toInt.natAbs ++ rest) =
          unsigned? false (Nat.toDigits 10 n.toInt.natAbs ++ rest) := by
        cases hd : Nat.toDigits 10 n.toInt.natAbs with
        | nil =>
            have := Nat.length_toDigits_pos (b := 10) (n := n.toInt.natAbs)
            rw [hd] at this
            cases this
        | cons c cs =>
            have hdigit : Text.isDigit c = true :=
              Text.isDigit_of_mem_toDigits (n := n.toInt.natAbs) (hd ▸ List.mem_cons_self)
            refine read?_of_ne_minus ?_ _
            rintro rfl
            exact absurd hdigit (by decide)
      rw [hread, unsigned?_toDigits false _ hr, ofParts?_plain hle, hback]
      rfl

end Number

end Json

end GuidedLab
