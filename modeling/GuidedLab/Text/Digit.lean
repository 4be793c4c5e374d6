/-!
# Decimal digits

Two classes of digits are told apart. A *decimal digit* is any character of the general category
`Nd`: run names are recognised by them, whatever the script. An *ASCII digit* is one of `0` to `9`:
only these are read as numbers. Writing goes the other way, and always in ASCII: `padded` writes a
number with leading zeros up to a width.
-/

namespace GuidedLab.Text

/-- The first characters of the sets of ten decimal digits that lie alone. -/
def digitRows : List Nat :=
  [0x30, 0x660, 0x6F0, 0x7C0, 0x966, 0x9E6, 0xA66, 0xAE6, 0xB66, 0xBE6, 0xC66, 0xCE6, 0xD66, 0xDE6,
    0xE50, 0xED0, 0xF20, 0x1040, 0x1090, 0x17E0, 0x1810, 0x1946, 0x19D0, 0x1A80, 0x1A90, 0x1B50,
    0x1BB0, 0x1C40, 0x1C50, 0xA620, 0xA8D0, 0xA900, 0xA9D0, 0xA9F0, 0xAA50, 0xABF0, 0xFF10,
    0x104A0, 0x10D30, 0x10D40, 0x11066, 0x110F0, 0x11136, 0x111D0, 0x112F0, 0x11450, 0x114D0,
    0x11650, 0x116C0, 0x116D0, 0x116DA, 0x11730, 0x118E0, 0x11950, 0x11BF0, 0x11C50, 0x11D50,
    0x11DA0, 0x11F50, 0x16130, 0x16A60, 0x16AC0, 0x16B50, 0x16D70, 0x1CCF0, 0x1D7CE, 0x1D7D8,
    0x1D7E2, 0x1D7EC, 0x1D7F6, 0x1E140, 0x1E2F0, 0x1E4F0, 0x1E5F1, 0x1E950, 0x1FBF0]

/-- A decimal digit of any script lies within ten characters of the start of its row. -/
def isDecimalDigit (c : Char) : Bool :=
  digitRows.any fun row => row ≤ c.toNat && c.toNat < row + 10

/-- The value of an ASCII digit. -/
def digitValue? (c : Char) : Option Nat :=
  if '0' ≤ c ∧ c ≤ '9' then some (c.toNat - '0'.toNat) else none

/-- An ASCII digit. -/
def isDigit (c : Char) : Bool :=
  (digitValue? c).isSome

/-- The value of a hexadecimal digit of either case. -/
def hexValue? (c : Char) : Option Nat :=
  if '0' ≤ c ∧ c ≤ '9' then some (c.toNat - '0'.toNat)
  else if 'a' ≤ c ∧ c ≤ 'f' then some (c.toNat - 'a'.toNat + 10)
  else if 'A' ≤ c ∧ c ≤ 'F' then some (c.toNat - 'A'.toNat + 10)
  else none

/-- The number that ASCII digits spell, most significant first, from a number already read. -/
def readDigits? (value : Nat) : List Char → Option Nat
  | [] => some value
  | c :: cs => (digitValue? c).bind fun d => readDigits? (value * 10 + d) cs

/-- The number that a non-empty row of ASCII digits spells. -/
def natural? : List Char → Option Nat
  | [] => none
  | cs => readDigits? 0 cs

/-- A number in decimal, with leading zeros up to a width. -/
def padded (width n : Nat) : String :=
  let digits := Nat.repr n
  String.ofList (List.replicate (width - digits.length) '0') ++ digits

/-- The digits of a number in hexadecimal, lower case. -/
def hexDigits (n : Nat) : List Char :=
  Nat.toDigits 16 n

@[simp] theorem readDigits?_nil (value : Nat) : readDigits? value [] = some value := rfl

theorem readDigits?_cons (value : Nat) (c : Char) (cs : List Char) :
    readDigits? value (c :: cs) = (digitValue? c).bind fun d => readDigits? (value * 10 + d) cs :=
  rfl

/-- Reading two rows of digits one after the other is reading the first and going on from there. -/
theorem readDigits?_append (value : Nat) (cs ds : List Char) :
    readDigits? value (cs ++ ds) = (readDigits? value cs).bind fun v => readDigits? v ds := by
  induction cs generalizing value with
  | nil => rfl
  | cons c cs ih =>
    rw [List.cons_append, readDigits?_cons, readDigits?_cons]
    cases digitValue? c with
    | none => rfl
    | some d => exact ih _

end GuidedLab.Text
