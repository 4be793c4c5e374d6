import GuidedLab.Json.Value
import GuidedLab.Json.Quoted
import GuidedLab.Json.Real

/-!
# Reading JSON

A reader takes characters and gives a value and the characters it left, or nothing if the text is
not JSON. Blanks are the space, the line feed, the carriage return and the tab. A text holds one
value with blanks around it.

Containers nest to a limit. `value? n` reads a value with at most `n` containers around its innermost
part, so the recursion runs on that number; the items of one container are read by `listed?`, which
is given the reader of one item and runs on the length of the text. No limit on the text itself
remains: every item takes a character.

A plain integer within the limits of 64 bits, signed or not, is an integer. Every other number is a
real: a longer integer, one with a fraction or an exponent, and zero with a minus sign. The digits of
a real are gathered into a significand of 64 bits; digits past that only count for the exponent. A
real above the largest value of its format is not read at all.
-/

namespace GuidedLab.Json

/-- How deep containers may nest. -/
def depthLimit : Nat := 127

/-- A blank of a JSON text. -/
def isBlank (c : Char) : Bool :=
  c = ' ' || c = '\n' || c = '\r' || c = '\t'

/-- The characters after the blanks. -/
def skipBlanks (input : List Char) : List Char :=
  input.dropWhile isBlank

/-- The characters after an expected beginning. -/
def after? : List Char → List Char → Option (List Char)
  | [], input => some input
  | _ :: _, [] => none
  | c :: cs, d :: input => if c = d then after? cs input else none

namespace Number

/-- The largest significand. -/
def largestSignificand : Nat := UInt64.size - 1

/-- The number that digits add to a significand as far as they fit, and the digits left over. -/
def gathered (significand : Nat) : List Char → Nat × List Char
  | [] => (significand, [])
  | c :: cs =>
    let next := significand * 10 + (Text.digitValue? c).getD 0
    if next ≤ largestSignificand then gathered next cs else (significand, c :: cs)

/-- The digits at the front, and the rest. -/
def digits (input : List Char) : List Char × List Char :=
  (input.takeWhile Text.isDigit, input.dropWhile Text.isDigit)

/-- The digits of an integer, which has no leading zero, and the rest. -/
def integerDigits? (input : List Char) : Option (List Char × List Char) :=
  let (ds, rest) := digits input
  match ds with
  | [] => none
  | ['0'] => some (ds, rest)
  | '0' :: _ => none
  | _ => some (ds, rest)

/-- The digits after a point, at least one if there is a point. -/
def fraction? : List Char → Option (List Char × List Char)
  | '.' :: input =>
    let (ds, rest) := digits input
    if ds.isEmpty then none else some (ds, rest)
  | input => some ([], input)

/-- The sign in front of the digits of an exponent, and what follows it. -/
def exponentSign : List Char → Bool × List Char
  | '+' :: input => (false, input)
  | '-' :: input => (true, input)
  | input => (false, input)

/-- The exponent, at least one digit if there is an `e`; `none` inside if there is no `e`. -/
def exponent? : List Char → Option (Option Int × List Char)
  | c :: input =>
    if c = 'e' ∨ c = 'E' then
      let (negative, input) := exponentSign input
      let (ds, rest) := digits input
      (Text.natural? ds).map fun n => (some (if negative then -(n : Int) else n), rest)
    else some (none, c :: input)
  | [] => some (none, [])

/-- The number with a sign, digits before and after the point, and an exponent. -/
def ofParts? (negative : Bool) (whole fraction : List Char) (exponent : Option Int) :
    Option Number :=
  let real? : Unit → Option Number := fun _ =>
    let (s, wholeLeft) := gathered 0 whole
    let (s, fractionLeft) := gathered s fraction
    let shift : Int := wholeLeft.length - (fraction.length - fractionLeft.length : Nat)
    (Real.scaled? s (shift + exponent.getD 0)).map (.real negative)
  if fraction.isEmpty && exponent.isNone then
    let n := (Text.natural? whole).getD 0
    if negative then
      if 0 < n ∧ Int64.minValue.toInt ≤ -(n : Int) then some (.integer (-(n : Int))) else real? ()
    else
      if n ≤ largestSignificand then some (.integer n) else real? ()
  else real? ()

/-- A number at the front. -/
def read? (input : List Char) : Option (Number × List Char) := do
  let (negative, input) := match input with
    | '-' :: input => (true, input)
    | input => (false, input)
  let (whole, input) ← integerDigits? input
  let (fraction, input) ← fraction? input
  let (exponent, input) ← exponent? input
  let n ← ofParts? negative whole fraction exponent
  return (n, input)

end Number

/-- Items separated by commas up to a closing character, given the reader of one item. The number is
at least the number of items. -/
def listed? {α : Type} (item? : List Char → Option (α × List Char)) (close : Char) :
    Nat → List Char → Option (List α × List Char)
  | 0, _ => none
  | n + 1, input => do
    let (a, rest) ← item? input
    match skipBlanks rest with
    | [] => none
    | c :: rest =>
      if c = close then some ([a], rest)
      else if c = ',' then
        (listed? item? close n rest).map fun r => (a :: r.1, r.2)
      else none

/-- The items of a container whose opening character is read. -/
def container? {α : Type} (item? : List Char → Option (α × List Char)) (close : Char)
    (input : List Char) : Option (List α × List Char) :=
  match skipBlanks input with
  | [] => none
  | c :: rest =>
    if c = close then some ([], rest) else listed? item? close input.length (c :: rest)

/-- A quoted text at the front, after blanks. -/
def name? (input : List Char) : Option (String × List Char) :=
  match skipBlanks input with
  | [] => none
  | c :: rest =>
    if c = Quoted.mark then (Quoted.unquoted? rest).map fun r => (String.ofList r.1, r.2)
    else none

/-- A member: a name, a colon and a value. -/
def member? (value? : List Char → Option (Value × List Char)) (input : List Char) :
    Option ((String × Value) × List Char) := do
  let (name, rest) ← name? input
  match skipBlanks rest with
  | ':' :: rest =>
    let (v, rest) ← value? rest
    return ((name, v), rest)
  | _ => none

/-- A value after blanks, given the readers of what stands between brackets and between braces. -/
def valueWith? (array? : List Char → Option (List Value × List Char))
    (object? : List Char → Option (List (String × Value) × List Char)) (input : List Char) :
    Option (Value × List Char) :=
  match skipBlanks input with
  | [] => none
  | c :: rest =>
    if c = '[' then (array? rest).map fun r => (.array r.1, r.2)
    else if c = '\x7b' then (object? rest).map fun r => (.object r.1, r.2)
    else if c = Quoted.mark then
      (Quoted.unquoted? rest).map fun r => (.string (String.ofList r.1), r.2)
    else if c = 'n' then (after? "ull".toList rest).map fun r => (.null, r)
    else if c = 't' then (after? "rue".toList rest).map fun r => (.bool true, r)
    else if c = 'f' then (after? "alse".toList rest).map fun r => (.bool false, r)
    else (Number.read? (c :: rest)).map fun r => (.number r.1, r.2)

/-- A value with at most so many containers inside each other. -/
def value? : Nat → List Char → Option (Value × List Char)
  | 0 => valueWith? (fun _ => none) (fun _ => none)
  | n + 1 => valueWith? (container? (value? n) ']') (container? (member? (value? n)) '\x7d')

/-- The value that a text spells. -/
def ofText? (text : String) : Option Value := do
  let (v, rest) ← value? depthLimit text.toList
  if (skipBlanks rest).isEmpty then some v else none

end GuidedLab.Json
