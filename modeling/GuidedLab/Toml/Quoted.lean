import GuidedLab.Text.Digit

/-!
# Quoted texts of TOML

There are four ways to quote a text. Between quotation marks a backslash spells other characters;
between apostrophes everything stands for itself. One mark quotes a text within a line. Three marks
quote a text of any number of lines: a line break right after the opening marks does not count, and up
to two marks may stand before the closing ones. In a text of several lines between quotation marks a
backslash at the end of a line takes away everything up to the next character that is not blank.

The readers start after the opening marks. They recurse on the characters; what is to be passed over
after a backslash is told to the next step (`Passing`).
-/

namespace GuidedLab.Toml.Quoted

/-- The mark of texts with escapes. -/
def mark : Char := '\x22'

/-- The mark of literal texts. -/
def apostrophe : Char := '\''

/-- A character that may stand in a text: a tab, or no control character. -/
def isPlain (c : Char) : Bool :=
  c = '\t' || (32 ≤ c.toNat && c.toNat ≠ 127)

/-- A blank within a line. -/
def isSpace (c : Char) : Bool := c = ' ' || c = '\t'

/-- Whether a line break is next. -/
def atBreak : List Char → Bool
  | '\n' :: _ => true
  | '\r' :: '\n' :: _ => true
  | _ => false

/-- What follows a line break, if there is one. -/
def afterBreak : List Char → List Char
  | '\n' :: rest => rest
  | '\r' :: '\n' :: rest => rest
  | input => input

/-- The number that hexadecimal digits spell, if there are as many as asked for. -/
def hexNumber? : Nat → Nat → List Char → Option Nat
  | 0, value, _ => some value
  | _ + 1, _, [] => none
  | n + 1, value, c :: rest => (Text.hexValue? c).bind fun d => hexNumber? n (value * 16 + d) rest

/-- The character of a number. -/
def character? (n : Nat) : Option Char :=
  if h : n.isValidChar then some (Char.ofNatAux n h) else none

/-- The character that is spelled after a backslash, and the number of characters that spell it. -/
def escape? : List Char → Option (Char × Nat)
  | [] => none
  | c :: rest =>
    let hex (digits : Nat) : Option (Char × Nat) :=
      ((hexNumber? digits 0 rest).bind character?).map fun d => (d, digits + 1)
    if c = mark then some (mark, 1)
    else if c = '\\' then some ('\\', 1)
    else if c = 'b' then some (Char.ofNat 8, 1)
    else if c = 't' then some ('\t', 1)
    else if c = 'n' then some ('\n', 1)
    else if c = 'f' then some (Char.ofNat 12, 1)
    else if c = 'r' then some ('\r', 1)
    else if c = 'e' then some (Char.ofNat 27, 1)
    else if c = 'x' then hex 2
    else if c = 'u' then hex 4
    else if c = 'U' then hex 8
    else none

/-- What is passed over before reading goes on. -/
inductive Passing where
  | nothing
  | characters (n : Nat)
  | blanks

/-- A number of characters to be passed over. -/
def Passing.ofNat (n : Nat) : Passing := if n = 0 then .nothing else .characters n

/-- A text within a line up to its closing mark, and the rest. -/
def line? : Passing → List Char → Option (List Char × List Char)
  | _, [] => none
  | .characters n, _ :: rest => line? (.ofNat (n - 1)) rest
  | _, c :: rest =>
    if c = mark then some ([], rest)
    else if c = '\\' then
      (escape? rest).bind fun e => (line? (.characters e.2) rest).map fun r => (e.1 :: r.1, r.2)
    else if isPlain c then (line? .nothing rest).map fun r => (c :: r.1, r.2)
    else none

/-- Up to two marks that stand before the closing ones, and the rest. -/
def marksBefore (m : Char) : List Char → List Char × List Char
  | a :: b :: rest =>
    if a = m then if b = m then ([m, m], rest) else ([m], b :: rest) else ([], a :: b :: rest)
  | [a] => if a = m then ([m], []) else ([], [a])
  | [] => ([], [])

/-- Whether two more of a mark are next. -/
def closes (m : Char) (input : List Char) : Bool := [m, m].isPrefixOf input

/-- A text of several lines up to its closing marks, and the rest. -/
def lines? : Passing → List Char → Option (List Char × List Char)
  | _, [] => none
  | .characters n, _ :: rest => lines? (.ofNat (n - 1)) rest
  | passing, c :: rest =>
    let passed : Bool := match passing with
      | .blanks => isSpace c || atBreak (c :: rest)
      | _ => false
    if passed then lines? .blanks rest
    else if c = mark then
      if closes mark rest then some (marksBefore mark (rest.drop 2))
      else (lines? .nothing rest).map fun r => (c :: r.1, r.2)
    else if c = '\\' then
      if atBreak (rest.dropWhile isSpace) then lines? .blanks rest
      else (escape? rest).bind fun e =>
        (lines? (.characters e.2) rest).map fun r => (e.1 :: r.1, r.2)
    else if isPlain c || atBreak (c :: rest) then
      (lines? .nothing rest).map fun r => (c :: r.1, r.2)
    else none

/-- A literal text within a line up to its closing mark, and the rest. -/
def literalLine? : List Char → Option (List Char × List Char)
  | [] => none
  | c :: rest =>
    if c = apostrophe then some ([], rest)
    else if isPlain c then (literalLine? rest).map fun r => (c :: r.1, r.2)
    else none

/-- A literal text of several lines up to its closing marks, and the rest. -/
def literalLines? : List Char → Option (List Char × List Char)
  | [] => none
  | c :: rest =>
    if c = apostrophe && closes apostrophe rest then some (marksBefore apostrophe (rest.drop 2))
    else if isPlain c || atBreak (c :: rest) then
      (literalLines? rest).map fun r => (c :: r.1, r.2)
    else none

/-- A text of any of the four ways, and the rest. -/
def text? : List Char → Option (List Char × List Char)
  | [] => none
  | c :: rest =>
    if c = mark then
      if closes mark rest then lines? .nothing (afterBreak (rest.drop 2)) else line? .nothing rest
    else if c = apostrophe then
      if closes apostrophe rest then literalLines? (afterBreak (rest.drop 2))
      else literalLine? rest
    else none

end GuidedLab.Toml.Quoted
