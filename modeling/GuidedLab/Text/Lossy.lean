/-!
# Bytes read as a text

Bytes that are meant to be UTF-8 are read one by one. A byte that stands for a character gives it at
once; one that begins a longer character says how many bytes are to come and in which range the next of
them is, so that no character has more bytes than it needs and none is outside of Unicode. Every byte
after it brings six bits.

Bytes need not be the bytes of a text. A character that is begun and not carried on is replaced, with all
its bytes by one `replacement`, and the byte that does not carry it on is read on its own.
-/

namespace GuidedLab.Text

/-- What stands for bytes that are no character. -/
def replacement : Char := '\uFFFD'

/-- A character of which some bytes were read: the bits so far, how many bytes are to come after the next
one, and the range of the bits of the next one. -/
structure Begun where
  bits : Nat
  after : Nat
  low : Nat
  high : Nat
deriving DecidableEq, Repr

/-- The character that begins with a byte, if that is the first byte of a longer one. -/
def begun? (b : UInt8) : Option Begun :=
  let n := b.toNat
  if n < 0xC2 then none
  else if n < 0xE0 then some ⟨n - 0xC0, 0, 0, 63⟩
  else if n < 0xF0 then
    some ⟨n - 0xE0, 1, if n = 0xE0 then 32 else 0, if n = 0xED then 31 else 63⟩
  else if n < 0xF5 then
    some ⟨n - 0xF0, 2, if n = 0xF0 then 16 else 0, if n = 0xF4 then 15 else 63⟩
  else none

/-- The characters that are settled by a byte, and the one that it leaves begun. -/
structure Reading where
  settled : List Char
  pending : Option Begun
deriving DecidableEq, Repr

/-- A byte where no character is begun. -/
def readFirst (b : UInt8) : Reading :=
  if b.toNat < 0x80 then ⟨[Char.ofNat b.toNat], none⟩
  else
    match begun? b with
    | some x => ⟨[], some x⟩
    | none => ⟨[replacement], none⟩

/-- Whether a byte carries on a character. -/
def Begun.takes (x : Begun) (b : UInt8) : Bool :=
  0x80 + x.low ≤ b.toNat && b.toNat ≤ 0x80 + x.high

/-- A character with one more byte. -/
def Begun.carriedOn (x : Begun) (b : UInt8) : Reading :=
  let bits := x.bits * 64 + (b.toNat - 0x80)
  match x.after with
  | 0 => ⟨[Char.ofNat bits], none⟩
  | n + 1 => ⟨[], some ⟨bits, n, 0, 63⟩⟩

/-- A byte after what is pending. -/
def read : Option Begun → UInt8 → Reading
  | none, b => readFirst b
  | some x, b =>
    if x.takes b then x.carriedOn b
    else ⟨replacement :: (readFirst b).settled, (readFirst b).pending⟩

/-- The characters of bytes after what is pending. -/
def lossyFrom (pending : Option Begun) : List UInt8 → List Char
  | [] => if pending.isSome then [replacement] else []
  | b :: rest => (read pending b).settled ++ lossyFrom (read pending b).pending rest

/-- The characters of bytes, with replacements for what is no character. -/
def lossy (bytes : List UInt8) : List Char := lossyFrom none bytes

end GuidedLab.Text
