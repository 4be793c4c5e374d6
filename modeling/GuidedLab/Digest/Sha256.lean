import GuidedLab.Text.Digit

/-!
# SHA-256

The digest of a row of bytes, as eight words of 32 bits. A message is padded to whole blocks of
sixteen words: one bit, zeros, and the length in bits. Each block then runs through 64 rounds on the
eight chaining words. The word of each round comes from the sixteen words before it, so the schedule
is kept as a window of sixteen words that moves on by one with each round.
-/

namespace GuidedLab.Digest.Sha256

/-- The chaining words. -/
structure Chain where
  a : UInt32
  b : UInt32
  c : UInt32
  d : UInt32
  e : UInt32
  f : UInt32
  g : UInt32
  h : UInt32
deriving DecidableEq, Repr

/-- The words before the first block: the fractions of the square roots of the first eight primes. -/
def initial : Chain :=
  ⟨0x6a09e667, 0xbb67ae85, 0x3c6ef372, 0xa54ff53a, 0x510e527f, 0x9b05688c, 0x1f83d9ab, 0x5be0cd19⟩

/-- The words added in the rounds: the fractions of the cube roots of the first 64 primes. -/
def roundWords : List UInt32 :=
  [0x428a2f98, 0x71374491, 0xb5c0fbcf, 0xe9b5dba5, 0x3956c25b, 0x59f111f1, 0x923f82a4, 0xab1c5ed5,
    0xd807aa98, 0x12835b01, 0x243185be, 0x550c7dc3, 0x72be5d74, 0x80deb1fe, 0x9bdc06a7, 0xc19bf174,
    0xe49b69c1, 0xefbe4786, 0x0fc19dc6, 0x240ca1cc, 0x2de92c6f, 0x4a7484aa, 0x5cb0a9dc, 0x76f988da,
    0x983e5152, 0xa831c66d, 0xb00327c8, 0xbf597fc7, 0xc6e00bf3, 0xd5a79147, 0x06ca6351, 0x14292967,
    0x27b70a85, 0x2e1b2138, 0x4d2c6dfc, 0x53380d13, 0x650a7354, 0x766a0abb, 0x81c2c92e, 0x92722c85,
    0xa2bfe8a1, 0xa81a664b, 0xc24b8b70, 0xc76c51a3, 0xd192e819, 0xd6990624, 0xf40e3585, 0x106aa070,
    0x19a4c116, 0x1e376c08, 0x2748774c, 0x34b0bcb5, 0x391c0cb3, 0x4ed8aa4a, 0x5b9cca4f, 0x682e6ff3,
    0x748f82ee, 0x78a5636f, 0x84c87814, 0x8cc70208, 0x90befffa, 0xa4506ceb, 0xbef9a3f7, 0xc67178f2]

/-- A word turned to the right by a number of bits. -/
def turned (x n : UInt32) : UInt32 := (x >>> n) ||| (x <<< (32 - n))

/-- The next word of the schedule, from the sixteen before it. -/
def scheduled (window : List UInt32) : UInt32 :=
  let w (i : Nat) : UInt32 := window.getD i 0
  let s0 := turned (w 1) 7 ^^^ turned (w 1) 18 ^^^ (w 1 >>> 3)
  let s1 := turned (w 14) 17 ^^^ turned (w 14) 19 ^^^ (w 14 >>> 10)
  w 0 + s0 + w 9 + s1

/-- One round with the word of the schedule and the word of the round. -/
def round (x : Chain) (w k : UInt32) : Chain :=
  let s1 := turned x.e 6 ^^^ turned x.e 11 ^^^ turned x.e 25
  let choice := (x.e &&& x.f) ^^^ (~~~x.e &&& x.g)
  let t1 := x.h + s1 + choice + k + w
  let s0 := turned x.a 2 ^^^ turned x.a 13 ^^^ turned x.a 22
  let majority := (x.a &&& x.b) ^^^ (x.a &&& x.c) ^^^ (x.b &&& x.c)
  ⟨t1 + (s0 + majority), x.a, x.b, x.c, x.d + t1, x.e, x.f, x.g⟩

/-- The rounds for the words left, with the window of the schedule. -/
def rounds (x : Chain) (window : List UInt32) : List UInt32 → Chain
  | [] => x
  | k :: rest =>
    rounds (round x (window.headD 0) k) (window.drop 1 ++ [scheduled window]) rest

/-- The chaining words after a block. -/
def absorbed (x : Chain) (block : List UInt32) : Chain :=
  let y := rounds x block roundWords
  ⟨x.a + y.a, x.b + y.b, x.c + y.c, x.d + y.d, x.e + y.e, x.f + y.f, x.g + y.g, x.h + y.h⟩

/-- A message with its padding. -/
def padded (message : List UInt8) : List UInt8 :=
  let bits := 8 * message.length
  let zeros := (119 - message.length % 64) % 64
  let lengthBytes := (List.range 8).map fun i => UInt8.ofNat (bits >>> (8 * (7 - i)))
  message ++ 0x80 :: (List.replicate zeros 0 ++ lengthBytes)

/-- Bytes as words, the most significant byte first; bytes that fill no word are left out. -/
def words : List UInt8 → List UInt32
  | a :: b :: c :: d :: rest =>
    (a.toUInt32 <<< 24 ||| b.toUInt32 <<< 16 ||| c.toUInt32 <<< 8 ||| d.toUInt32) :: words rest
  | _ => []

/-- The chaining words after so many blocks of sixteen words. -/
def absorbedAll (x : Chain) : Nat → List UInt32 → Chain
  | 0, _ => x
  | n + 1, ws => absorbedAll (absorbed x (ws.take 16)) n (ws.drop 16)

/-- The digest of a message. -/
def digest (message : List UInt8) : Chain :=
  let ws := words (padded message)
  absorbedAll initial (ws.length / 16) ws

/-- A word in eight hexadecimal digits. -/
def wordDigits (w : UInt32) : List Char :=
  let digits := Text.hexDigits w.toNat
  List.replicate (8 - digits.length) '0' ++ digits

/-- A digest in hexadecimal. -/
def Chain.text (x : Chain) : String :=
  String.ofList ([x.a, x.b, x.c, x.d, x.e, x.f, x.g, x.h].flatMap wordDigits)

/-- The digest of a text in UTF-8, in hexadecimal. -/
def ofText (s : String) : String := (digest s.toUTF8.toList).text

end GuidedLab.Digest.Sha256
