import GuidedLab.Text.Digit

/-!
# Quoted texts

A quoted text stands between quotation marks. Writing spells the quotation mark, the backslash and
the control characters with a backslash and leaves everything else as it is (`escaped`). Reading
accepts more: every character may be spelled by the four hexadecimal digits of its code unit, and a
character outside the first plane by two such units, a leading one and then a trailing one. A unit of
a pair that stands alone is no text, and neither is a control character that is not spelled.

Reading goes in two steps. `pieces?` cuts the text into plain characters and code units up to the
closing mark, and `assembled?` puts the units together. Reading undoes writing, whatever follows the
closing mark (`unquoted?_quoted`).
-/

namespace GuidedLab.Json.Quoted

/-- The mark around a quoted text. -/
def mark : Char := '\x22'

/-- The spelling of one character. -/
def escaped (c : Char) : List Char :=
  if c = mark then ['\\', mark]
  else if c = '\\' then ['\\', '\\']
  else if c.toNat = 8 then ['\\', 'b']
  else if c.toNat = 9 then ['\\', 't']
  else if c.toNat = 10 then ['\\', 'n']
  else if c.toNat = 12 then ['\\', 'f']
  else if c.toNat = 13 then ['\\', 'r']
  else if c.toNat < 32 then
    ['\\', 'u', '0', '0', Nat.digitChar (c.toNat / 16), Nat.digitChar (c.toNat % 16)]
  else [c]

/-- A text between marks. -/
def quoted (s : List Char) : List Char :=
  mark :: (s.flatMap escaped ++ [mark])

/-- A part of a quoted text: a character that stands for itself, or a code unit. -/
inductive Piece where
  | char (c : Char)
  | unit (n : Nat)
deriving DecidableEq, Repr

/-- The character that a backslash and a letter spell. -/
def unescaped? (c : Char) : Option Char :=
  if c = mark then some mark
  else if c = '\\' then some '\\'
  else if c = '/' then some '/'
  else if c = 'b' then some (Char.ofNat 8)
  else if c = 't' then some (Char.ofNat 9)
  else if c = 'n' then some (Char.ofNat 10)
  else if c = 'f' then some (Char.ofNat 12)
  else if c = 'r' then some (Char.ofNat 13)
  else none

/-- The code unit that four hexadecimal digits spell. -/
def codeUnit? (a b c d : Char) : Option Nat := do
  let a ← Text.hexValue? a
  let b ← Text.hexValue? b
  let c ← Text.hexValue? c
  let d ← Text.hexValue? d
  return ((a * 16 + b) * 16 + c) * 16 + d

/-- The parts of a quoted text up to its closing mark, and what follows the mark. -/
def pieces? : List Char → Option (List Piece × List Char)
  | [] => none
  | c :: rest =>
    if c = mark then some ([], rest)
    else if c = '\\' then
      match rest with
      | 'u' :: w :: x :: y :: z :: rest =>
        (codeUnit? w x y z).bind fun n => (pieces? rest).map fun r => (.unit n :: r.1, r.2)
      | e :: rest =>
        (unescaped? e).bind fun d => (pieces? rest).map fun r => (.char d :: r.1, r.2)
      | [] => none
    else if c.toNat < 32 then none
    else (pieces? rest).map fun r => (.char c :: r.1, r.2)

/-- The first unit of a pair. -/
def isLeading (n : Nat) : Bool := 0xD800 ≤ n && n < 0xDC00

/-- The second unit of a pair. -/
def isTrailing (n : Nat) : Bool := 0xDC00 ≤ n && n < 0xE000

/-- The text of the parts, if no unit of a pair stands alone. -/
def assembled? : List Piece → Option (List Char)
  | [] => some []
  | .char c :: rest => (assembled? rest).map (c :: ·)
  | .unit n :: .unit m :: rest =>
    if isLeading n then
      if isTrailing m then
        (assembled? rest).map (Char.ofNat (0x10000 + (n - 0xD800) * 0x400 + (m - 0xDC00)) :: ·)
      else none
    else if isTrailing n then none
    else (assembled? (.unit m :: rest)).map (Char.ofNat n :: ·)
  | .unit n :: rest =>
    if isLeading n || isTrailing n then none else (assembled? rest).map (Char.ofNat n :: ·)

/-- The text up to the closing mark, and what follows the mark. The opening mark is already read. -/
def unquoted? (input : List Char) : Option (List Char × List Char) :=
  (pieces? input).bind fun r => (assembled? r.1).map fun s => (s, r.2)

/-- The part that the spelling of a character is read as. -/
def pieceOf (c : Char) : Piece :=
  if c.toNat < 32 ∧ c.toNat ∉ [8, 9, 10, 12, 13] then .unit c.toNat else .char c

theorem assembled?_pieceOf_cons (c : Char) (s : List Char) :
    assembled? (pieceOf c :: s.map pieceOf) = (assembled? (s.map pieceOf)).map (c :: ·) := by
  rw [pieceOf]
  split
  · next h =>
    have hl : isLeading c.toNat = false := by simp [isLeading]; omega
    have ht : isTrailing c.toNat = false := by simp [isTrailing]; omega
    cases hs : s.map pieceOf with
    | nil => simp [assembled?, hl, ht]
    | cons p ps => cases p <;> simp [assembled?, hl, ht]
  · rfl

theorem assembled?_map_pieceOf (s : List Char) : assembled? (s.map pieceOf) = some s := by
  induction s with
  | nil => rfl
  | cons c s ih => rw [List.map_cons, assembled?_pieceOf_cons, ih]; rfl

/-- The spelling of a character is read as its part, whatever follows. -/
theorem pieces?_escaped (c : Char) (rest : List Char) :
    pieces? (escaped c ++ rest) = (pieces? rest).map fun r => (pieceOf c :: r.1, r.2) := by
  have hne : '\\' ≠ mark := by decide
  by_cases hm : c = mark
  · subst hm; rfl
  by_cases hb : c = '\\'
  · subst hb; rfl
  have hof : ∀ n, c.toNat = n → c = Char.ofNat n := fun n h => by rw [← h, Char.ofNat_toNat]
  by_cases h8 : c.toNat = 8
  · rw [hof 8 h8]; rfl
  by_cases h9 : c.toNat = 9
  · rw [hof 9 h9]; rfl
  by_cases h10 : c.toNat = 10
  · rw [hof 10 h10]; rfl
  by_cases h12 : c.toNat = 12
  · rw [hof 12 h12]; rfl
  by_cases h13 : c.toNat = 13
  · rw [hof 13 h13]; rfl
  by_cases h : c.toNat < 32
  · have hunit : codeUnit? '0' '0' (Nat.digitChar (c.toNat / 16)) (Nat.digitChar (c.toNat % 16)) =
        some c.toNat := by
      have : ∀ n < 32, codeUnit? '0' '0' (Nat.digitChar (n / 16)) (Nat.digitChar (n % 16)) =
          some n := by decide
      exact this _ h
    have hp : pieceOf c = .unit c.toNat := by simp [pieceOf, h, h8, h9, h10, h12, h13]
    rw [escaped, if_neg hm, if_neg hb, if_neg h8, if_neg h9, if_neg h10, if_neg h12, if_neg h13,
      if_pos h, hp]
    simp only [List.cons_append, List.nil_append]
    rw [pieces?, if_neg hne, if_pos rfl]
    simp [hunit]
  · have hp : pieceOf c = .char c := by simp [pieceOf, h]
    rw [escaped, if_neg hm, if_neg hb, if_neg h8, if_neg h9, if_neg h10, if_neg h12, if_neg h13,
      if_neg h, hp]
    simp only [List.cons_append, List.nil_append]
    rw [pieces?.eq_def]
    simp [hm, hb, h]

theorem pieces?_flatMap_escaped (s rest : List Char) :
    pieces? (s.flatMap escaped ++ mark :: rest) = some (s.map pieceOf, rest) := by
  induction s with
  | nil =>
    rw [List.flatMap_nil, List.nil_append, pieces?.eq_def]
    simp
  | cons c s ih => simp [List.flatMap_cons, List.append_assoc, pieces?_escaped, ih]

/-- Reading a quoted text gives the text back, and leaves what follows it. -/
theorem unquoted?_quoted (s rest : List Char) :
    unquoted? (s.flatMap escaped ++ mark :: rest) = some (s, rest) := by
  simp [unquoted?, pieces?_flatMap_escaped, assembled?_map_pieceOf]

end GuidedLab.Json.Quoted
