import GuidedLab.Calendar
import GuidedLab.Toml.Value

/-!
# Plain values of TOML

A value that is neither quoted nor bracketed is a row of characters without blanks: a truth value, an
integer, a real number, or a moment of the calendar. Digits may be grouped by underscores, each
between two digits. A decimal integer has no leading zero, and integers of other bases have no sign.
A moment is a date, a time, or both, and a date with a time may have an offset.
-/

namespace GuidedLab.Toml.Plain

/-- The digits of a number without the underscores between them, if there is a digit on each side of
every underscore. -/
def ungrouped? (isDigit : Char → Bool) : List Char → Option (List Char)
  | [] => none
  | [c] => if isDigit c then some [c] else none
  | c :: '_' :: d :: rest =>
    if isDigit c then (ungrouped? isDigit (d :: rest)).map (c :: ·) else none
  | c :: d :: rest => if isDigit c then (ungrouped? isDigit (d :: rest)).map (c :: ·) else none

/-- The number that digits of a base spell. -/
def numberIn (base : Nat) (digits : List Char) : Nat :=
  digits.foldl (fun n c => n * base + (Text.hexValue? c).getD 0) 0

/-- A digit of a base up to 16. -/
def isDigitIn (base : Nat) (c : Char) : Bool := (Text.hexValue? c).any (· < base)

/-- The number that grouped digits of a base spell. -/
def based? (base : Nat) (cs : List Char) : Option Nat :=
  (ungrouped? (isDigitIn base) cs).map (numberIn base)

/-- A sign, plus if there is none, and what follows it. -/
def signed : List Char → Bool × List Char
  | '-' :: cs => (true, cs)
  | '+' :: cs => (false, cs)
  | cs => (false, cs)

/-- The digits of a decimal integer, which has no leading zero. -/
def whole? (cs : List Char) : Option (List Char) :=
  match ungrouped? (isDigitIn 10) cs with
  | some ('0' :: _ :: _) => none
  | ds => ds

/-- An integer. -/
def integer? : List Char → Option Int
  | '0' :: 'x' :: cs => (based? 16 cs).map Int.ofNat
  | '0' :: 'o' :: cs => (based? 8 cs).map Int.ofNat
  | '0' :: 'b' :: cs => (based? 2 cs).map Int.ofNat
  | cs =>
    let (negative, cs) := signed cs
    (whole? cs).map fun ds => if negative then -(numberIn 10 ds : Int) else numberIn 10 ds

/-- The characters before and after the first that satisfies a property. -/
def cut (p : Char → Bool) (cs : List Char) : List Char × Option (List Char) :=
  match cs.dropWhile fun c => !p c with
  | [] => (cs, none)
  | _ :: rest => (cs.takeWhile fun c => !p c, some rest)

/-- The exponent of a real number, zero if none is written. -/
def exponent? : Option (List Char) → Option Int
  | none => some 0
  | some cs =>
    let (negative, cs) := signed cs
    (based? 10 cs).map fun n => if negative then -(n : Int) else n

/-- The digits after the point of a real number, none if there is no point. -/
def fraction? : Option (List Char) → Option (List Char)
  | none => some []
  | some cs => ungrouped? (isDigitIn 10) cs

/-- A real number that digits write: it has a point or an exponent. -/
def real? (cs : List Char) : Option Value := do
  let (negative, cs) := signed cs
  let (mantissa, power) := cut (fun c => c = 'e' || c = 'E') cs
  let (before, after) := cut (· = '.') mantissa
  if power.isNone && after.isNone then none
  else do
    let before ← whole? before
    let after ← fraction? after
    let exponent ← exponent? power
    return .real negative (numberIn 10 (before ++ after)) (exponent - after.length)

/-- Two digits as a number. -/
def two? (a b : Char) : Option Nat := Text.natural? [a, b]

/-- A date at the front, and the rest. -/
def date? : List Char → Option ((Int × Nat × Nat) × List Char)
  | y1 :: y2 :: y3 :: y4 :: '-' :: m1 :: m2 :: '-' :: d1 :: d2 :: rest => do
    let year ← Text.natural? [y1, y2, y3, y4]
    let month ← two? m1 m2
    let day ← two? d1 d2
    if (Moment.isValid ⟨year, month, day, 0, 0, 0⟩ : Bool) then some ((year, month, day), rest)
    else none
  | _ => none

/-- What follows a fraction of a second, which has a digit. -/
def afterFraction? : List Char → Option (List Char)
  | '.' :: rest =>
    if (rest.takeWhile Text.isDigit).isEmpty then none else some (rest.dropWhile Text.isDigit)
  | rest => some rest

/-- What follows the seconds of a time, which may be left out. -/
def afterSeconds? : List Char → Option (List Char)
  | ':' :: a :: b :: rest => (two? a b).bind fun s => if s ≤ 60 then afterFraction? rest else none
  | ':' :: _ => none
  | rest => some rest

/-- What follows hours and minutes. -/
def afterMinutes? : List Char → Option (List Char)
  | a :: b :: ':' :: c :: d :: rest => do
    let hour ← two? a b
    let minute ← two? c d
    if hour < 24 ∧ minute < 60 then some rest else none
  | _ => none

/-- What follows a time. -/
def afterTime? (cs : List Char) : Option (List Char) := (afterMinutes? cs).bind afterSeconds?

/-- Whether characters are an offset, or none. -/
def isOffset : List Char → Bool
  | [] => true
  | ['Z'] => true
  | ['z'] => true
  | c :: rest => (c = '+' || c = '-') && (afterMinutes? rest).any (·.isEmpty)

/-- Whether a character stands between a date and a time. -/
def isBetween (c : Char) : Bool := c = 'T' || c = 't' || c = ' '

/-- Whether characters are a moment. -/
def isMoment (cs : List Char) : Bool :=
  match date? cs with
  | some (_, []) => true
  | some (_, c :: rest) => isBetween c && (afterTime? rest).any isOffset
  | none => (afterTime? cs).any (·.isEmpty)

/-- The numbers that no digits write. -/
def isSpecial (cs : List Char) : Bool :=
  let (_, cs) := signed cs
  cs = "inf".toList || cs = "nan".toList

/-- The value that characters write. -/
def value? (cs : List Char) : Option Value :=
  if cs = "true".toList then some (.bool true)
  else if cs = "false".toList then some (.bool false)
  else if isSpecial cs then some .unwritable
  else
    match integer? cs with
    | some n => some (.integer n)
    | none => (real? cs).or (if isMoment cs then some .moment else none)

/-- The integers that can be read: 128 bits with a sign or without. -/
def isReadableInteger (n : Int) : Bool := -(1 <<< 127 : Nat) ≤ n && n < (1 <<< 128 : Nat)

/-- The real numbers that can be read: the nearest value of the 64-bit binary format is finite. The
digits of an exponent past three decide by themselves. -/
def isReadableReal (significand : Nat) (exponent : Int) : Bool :=
  let digits : Int := (Nat.repr significand).length
  if significand = 0 then true
  else if 400 < digits + exponent then false
  else if digits + exponent < 0 then true
  else
    let limit := (1 <<< 1024 - 1 <<< 970 : Nat)
    if 0 ≤ exponent then significand * Nat.pow 10 exponent.toNat < limit
    else significand < limit * Nat.pow 10 (-exponent).toNat

mutual

/-- Whether all numbers in a value can be read. -/
def isReadable : Value → Bool
  | .integer n => isReadableInteger n
  | .real _ significand exponent => isReadableReal significand exponent
  | .array items => areReadable items
  | .table _ entries => entriesAreReadable entries
  | .tables last before => entriesAreReadable last && areReadable before
  | _ => true

/-- Whether all numbers in values can be read. -/
def areReadable : List Value → Bool
  | [] => true
  | v :: rest => isReadable v && areReadable rest

/-- Whether all numbers in entries can be read. -/
def entriesAreReadable : List (String × Value) → Bool
  | [] => true
  | (_, v) :: rest => isReadable v && entriesAreReadable rest

end

end GuidedLab.Toml.Plain
