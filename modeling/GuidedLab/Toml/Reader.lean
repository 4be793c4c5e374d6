import GuidedLab.Toml.Plain
import GuidedLab.Toml.Quoted

/-!
# Reading TOML

A document is a row of lines, and a line may hold one statement: a header in brackets, a header in
double brackets, or a key with a value. A key has one part or more with dots between them. Keys with
values go into the table of the last header. A byte order mark at the very start does not count.

Arrays and inline tables nest to a limit, and the recursion of `value?` runs on it. The parts of a
key nest tables too, and `key?` runs on the same limit. Rows are read with the length of the text as
a bound, which every item of a row shortens.

What is listed in an array or an inline table may be spread over lines, with comments, and a comma
may follow the last. In an inline table line breaks and comments may also stand before and after the
sign of equality, which a statement does not allow. They never stand beside the dot of a key.
-/

namespace GuidedLab.Toml

open Quoted (isSpace isPlain atBreak afterBreak)

/-- How deep arrays and inline tables may nest, and how many parts a key may have. -/
def depthLimit : Nat := 80

/-- The characters after blanks within a line. -/
def skipSpaces (input : List Char) : List Char := input.dropWhile isSpace

/-- The characters after blanks, line breaks and comments, if what is passed over is readable. -/
def skipLines? (inComment : Bool) : List Char → Option (List Char)
  | [] => some []
  | c :: rest =>
    if c = '\n' then skipLines? false rest
    else if atBreak (c :: rest) then skipLines? inComment rest
    else if inComment then if isPlain c then skipLines? true rest else none
    else if isSpace c then skipLines? false rest
    else if c = '#' then skipLines? true rest
    else some (c :: rest)

/-- The characters after a comment. -/
def afterComment : List Char → List Char
  | '#' :: rest => rest.dropWhile isPlain
  | input => input

/-- The lines after the end of a line, which may have blanks and a comment. -/
def endLine? (input : List Char) : Option (List Char) :=
  let rest := afterComment (skipSpaces input)
  if rest.isEmpty || atBreak rest then some (afterBreak rest) else none

/-- A character of a key without quotes. -/
def isBare (c : Char) : Bool :=
  ('a' ≤ c && c ≤ 'z') || ('A' ≤ c && c ≤ 'Z') || ('0' ≤ c && c ≤ '9') || c = '-' || c = '_'

/-- One part of a key, and the rest. -/
def part? : List Char → Option (String × List Char)
  | [] => none
  | c :: rest =>
    if c = Quoted.mark then
      (Quoted.line? .nothing rest).map fun r => (String.ofList r.1, r.2)
    else if c = Quoted.apostrophe then
      (Quoted.literalLine? rest).map fun r => (String.ofList r.1, r.2)
    else if isBare c then
      some (String.ofList ((c :: rest).takeWhile isBare), (c :: rest).dropWhile isBare)
    else none

/-- A key of at most so many parts, as the parts before the last dot and the last part, and what
follows it and its blanks. -/
def key? : Nat → List Char → Option ((List String × String) × List Char)
  | 0, _ => none
  | n + 1, input => do
    let (part, rest) ← part? (skipSpaces input)
    match skipSpaces rest with
    | '.' :: rest => do
      let ((path, last), rest) ← key? n rest
      return ((part :: path, last), rest)
    | rest => return (([], part), rest)

/-- Whether a character ends a plain value. -/
def endsPlain (c : Char) : Bool :=
  isSpace c || c = '\n' || c = '\r' || c = ',' || c = ']' || c = '\x7d' || c = '#' || c = '='

/-- The characters of a plain value, and the rest. A date goes on after one blank if a time
follows. -/
def plain (input : List Char) : List Char × List Char :=
  let cs := input.takeWhile fun c => !endsPlain c
  let rest := input.dropWhile fun c => !endsPlain c
  match (Plain.date? cs).map Prod.snd, rest with
  | some [], ' ' :: d :: after =>
    if Text.isDigit d then
      (cs ++ ' ' :: (d :: after).takeWhile (fun c => !endsPlain c),
        (d :: after).dropWhile fun c => !endsPlain c)
    else (cs, rest)
  | _, _ => (cs, rest)

/-- The items of an array or of an inline table up to the closing character, given the reader of one
item. -/
def listed? {α : Type} (item? : List Char → Option (α × List Char)) (close : Char) :
    Nat → List Char → Option (List α × List Char)
  | 0, _ => none
  | n + 1, input => do
    match ← skipLines? false input with
    | [] => none
    | c :: rest =>
      if c = close then some ([], rest)
      else do
        let (a, rest) ← item? (c :: rest)
        match ← skipLines? false rest with
        | [] => none
        | d :: rest =>
          if d = close then some ([a], rest)
          else if d = ',' then (listed? item? close n rest).map fun r => (a :: r.1, r.2)
          else none

/-- A key, the sign of equality and a value, given what may be passed over before and after the sign
and the reader of values. -/
def assignment? (skip? : List Char → Option (List Char))
    (value? : List Char → Option (Value × List Char)) (input : List Char) :
    Option (((List String × String) × Value) × List Char) := do
  let (key, rest) ← key? depthLimit input
  match ← skip? rest with
  | '=' :: rest => do
    let (v, rest) ← value? (← skip? rest)
    return ((key, v), rest)
  | _ => none

/-- The inline table of assignments. -/
def inlineTable? (assignments : List ((List String × String) × Value)) : Option Value := do
  let (_, entries) ← assignments.foldlM
    (fun (t : Value.Table) a => Value.assign a.1.1 a.1.2 a.2 t) (.header, [])
  return .table .inline entries

/-- A value, given the readers of what stands between brackets and between braces. -/
def valueWith? (array? : List Char → Option (List Value × List Char))
    (assignments? : List Char → Option (List ((List String × String) × Value) × List Char)) :
    List Char → Option (Value × List Char)
  | [] => none
  | c :: rest =>
    if c = '[' then (array? rest).map fun r => (.array r.1, r.2)
    else if c = '\x7b' then
      (assignments? rest).bind fun r => (inlineTable? r.1).map fun v => (v, r.2)
    else if c = Quoted.mark || c = Quoted.apostrophe then
      (Quoted.text? (c :: rest)).map fun r => (.text (String.ofList r.1), r.2)
    else
      let (cs, rest) := plain (c :: rest)
      (Plain.value? cs).map fun v => (v, rest)

/-- A value with at most so many arrays and inline tables inside each other. -/
def value? : Nat → List Char → Option (Value × List Char)
  | 0 => valueWith? (fun _ => none) (fun _ => none)
  | n + 1 =>
    valueWith? (fun input => listed? (value? n) ']' (input.length + 1) input)
      (fun input =>
        listed? (assignment? (skipLines? false) (value? n)) '\x7d' (input.length + 1) input)

/-- A document as far as it is read: the root and the path of the table of the last header. -/
structure Reading where
  root : Value.Table
  header : List String

/-- A document before its first line. -/
def Reading.start : Reading := ⟨(.header, []), []⟩

/-- The statement of a header: a table or the next of a list of tables. -/
def Reading.enter? (r : Reading) (path : List String) (key : String)
    (define : String → Value.Table → Option Value.Table) : Option Reading :=
  (Value.descend false (define key) path r.root).map fun root => ⟨root, path ++ [key]⟩

/-- The statement of a value for a key in the table of the last header. -/
def Reading.assign? (r : Reading) (path : List String) (key : String) (v : Value) :
    Option Reading :=
  (Value.descend false (Value.assign path key v) r.header r.root).map fun root => { r with root }

/-- A header whose opening brackets are read, up to its closing brackets. -/
def header? (close : List Char) (input : List Char) :
    Option ((List String × String) × List Char) := do
  let (key, rest) ← key? depthLimit input
  if close.isPrefixOf rest then some (key, rest.drop close.length) else none

/-- The document after one statement, and the characters after the statement. -/
def statement? (r : Reading) : List Char → Option (Reading × List Char)
  | '[' :: '[' :: rest => do
    let ((path, key), rest) ← header? [']', ']'] rest
    let r ← r.enter? path key Value.appendTable
    return (r, rest)
  | '[' :: rest => do
    let ((path, key), rest) ← header? [']'] rest
    let r ← r.enter? path key Value.defineTable
    return (r, rest)
  | input => do
    let (((path, key), v), rest) ← assignment? (some ∘ skipSpaces) (value? depthLimit) input
    let r ← r.assign? path key v
    return (r, rest)

/-- The document after so many statements at most, if the text then ends. -/
def document? : Nat → Reading → List Char → Option Reading
  | 0, _, _ => none
  | n + 1, r, input => do
    match ← skipLines? false input with
    | [] => some r
    | c :: rest => do
      let (r, rest) ← statement? r (c :: rest)
      let rest ← endLine? rest
      document? n r rest

/-- The characters after a byte order mark. -/
def skipMark : List Char → List Char
  | c :: rest => if c.toNat = 0xFEFF then rest else c :: rest
  | [] => []

/-- The entries of the document that a text spells. -/
def ofText? (text : String) : Option Entries :=
  let input := skipMark text.toList
  (document? (input.length + 1) .start input).map fun r => r.root.2

end GuidedLab.Toml
