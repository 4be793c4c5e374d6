import GuidedLab.Toml.Quoted

/-!
# Writing texts in TOML

A text is written in the first of four ways that needs no escapes: between quotation marks, between
apostrophes, between three quotation marks, between three apostrophes. A text that needs escapes in
any way is written between quotation marks, three of them if it has line breaks. A text with line
breaks starts on a line of its own.
-/

namespace GuidedLab.Toml.Written

/-- The ways to quote a text. -/
inductive Way where
  | line
  | literalLine
  | lines
  | literalLines
deriving DecidableEq, Repr

/-- The longest row of a character, given how long the row is that ends here. -/
def longestRun (c : Char) (run : Nat) : List Char → Nat
  | [] => run
  | d :: rest => if d = c then longestRun c (run + 1) rest else max run (longestRun c 0 rest)

/-- A control character that cannot stand for itself: a tab can, and so can a line break between
three marks. -/
def isControl (c : Char) : Bool :=
  (c.toNat < 32 && c ≠ '\t' && c ≠ '\n') || c.toNat = 127

/-- The way in which a text is written. -/
def way (cs : List Char) : Way :=
  let control := cs.any isControl
  let broken := cs.contains '\n'
  let slashed := cs.contains '\\'
  let marks := longestRun Quoted.mark 0 cs
  let apostrophes := longestRun Quoted.apostrophe 0 cs
  if !control && !slashed && marks = 0 && !broken then .line
  else if !control && apostrophes = 0 && !broken then .literalLine
  else if !control && !slashed && marks ≤ 2 then .lines
  else if !control && apostrophes ≤ 2 then .literalLines
  else if broken then .lines
  else .line

/-- A control character by its number. -/
def numbered (c : Char) : List Char :=
  let digits := (Text.hexDigits c.toNat).map Char.toUpper
  '\\' :: 'u' :: (List.replicate (4 - digits.length) '0' ++ digits)

/-- The spelling of a character other than a quotation mark. -/
def escaped (broken : Bool) (c : Char) : List Char :=
  if c.toNat = 8 then ['\\', 'b']
  else if c = '\t' then ['\\', 't']
  else if c = '\n' then if broken then [c] else ['\\', 'n']
  else if c.toNat = 12 then ['\\', 'f']
  else if c = '\r' then ['\\', 'r']
  else if c = '\\' then ['\\', '\\']
  else if isControl c then numbered c
  else [c]

/-- A text with its escapes, given how many quotation marks may stand in a row and how many more may
follow here. A spelling starts the count anew. -/
def body (broken : Bool) (allowed left : Nat) : List Char → List Char
  | [] => []
  | c :: rest =>
    if c = Quoted.mark then
      match left with
      | 0 => '\\' :: c :: body broken allowed allowed rest
      | left + 1 => c :: body broken allowed left rest
    else escaped broken c ++ body broken allowed allowed rest

/-- A text as it is written. -/
def quoted (s : String) : String :=
  let cs := s.toList
  let start := if cs.contains '\n' then ['\n'] else []
  let three (c : Char) := List.replicate 3 c
  String.ofList <|
    match way cs with
    | .line => Quoted.mark :: (body false 0 0 cs ++ [Quoted.mark])
    | .literalLine => Quoted.apostrophe :: (cs ++ [Quoted.apostrophe])
    | .lines => three Quoted.mark ++ start ++ body true 2 2 cs ++ three Quoted.mark
    | .literalLines => three Quoted.apostrophe ++ start ++ cs ++ three Quoted.apostrophe

end GuidedLab.Toml.Written
