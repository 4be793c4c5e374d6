import GuidedLab.Archive.Basic
import GuidedLab.Json.Reader

/-!
# The text of an archive

An archive is written as a JSON object with its keys in order: truth values, integers, texts and
objects. The compact text has no blanks. The pretty text puts each entry on a line of its own, two
spaces further in at each depth, and writes an archive without entries as an empty object.

Reading takes an object whose members are all of these kinds, members that a later one of the same
name replaces included. Integers have to fit into 64 bits with a sign; nothing else that JSON can
write has a place in an archive.
-/

namespace GuidedLab.Archive

/-- An integer in decimal. -/
def decimal (n : Int) : List Char :=
  if n < 0 then '-' :: (Nat.repr n.natAbs).toList else (Nat.repr n.natAbs).toList

/-- The text of a truth value. -/
def truthText (b : Bool) : List Char :=
  if b then "true".toList else "false".toList

/-- A key in quotes. -/
def keyText (key : String) : List Char :=
  Json.Quoted.quoted key.toList

mutual

/-- The compact text of a value. -/
def Value.compact : Value → List Char
  | .bool b => truthText b
  | .int n => decimal n.toInt
  | .text s => Json.Quoted.quoted s.toList
  | .nested entries => '\x7b' :: (compactEntries entries ++ ['\x7d'])

/-- The compact texts of entries with commas between them. -/
def compactEntries : List (String × Value) → List Char
  | [] => []
  | [(k, v)] => keyText k ++ ':' :: v.compact
  | (k, v) :: e :: rest => keyText k ++ ':' :: (v.compact ++ ',' :: compactEntries (e :: rest))

end

/-- The start of a line at a depth. -/
def lineStart (level : Nat) : List Char :=
  '\n' :: List.replicate (2 * level) ' '

mutual

/-- The pretty text of a value at a depth. -/
def Value.pretty (level : Nat) : Value → List Char
  | .bool b => truthText b
  | .int n => decimal n.toInt
  | .text s => Json.Quoted.quoted s.toList
  | .nested [] => ['\x7b', '\x7d']
  | .nested (e :: rest) =>
    '\x7b' :: (prettyEntries (level + 1) (e :: rest) ++ lineStart level ++ ['\x7d'])

/-- The pretty texts of entries at a depth, each on a line of its own. -/
def prettyEntries (level : Nat) : List (String × Value) → List Char
  | [] => []
  | [(k, v)] => lineStart level ++ keyText k ++ ':' :: ' ' :: v.pretty level
  | (k, v) :: e :: rest =>
    lineStart level ++ keyText k ++ ':' :: ' ' :: (v.pretty level ++ ',' :: prettyEntries level (e :: rest))

end

/-- The text without blanks. -/
def compact (a : Archive) : String :=
  String.ofList (Value.compact (.nested a.entries))

/-- The text with one entry a line. -/
def pretty (a : Archive) : String :=
  String.ofList (Value.pretty 0 (.nested a.entries))

mutual

/-- The number of archives around the innermost value, itself included. -/
def Value.depth : Value → Nat
  | .nested entries => 1 + depthOfEntries entries
  | _ => 0

/-- The greatest depth among entries. -/
def depthOfEntries : List (String × Value) → Nat
  | [] => 0
  | (_, v) :: rest => max v.depth (depthOfEntries rest)

end

/-- How deep archives nest, the archive itself counted. -/
def depth (a : Archive) : Nat :=
  Value.depth (.nested a.entries)

mutual

/-- The item that a JSON value stands for. -/
def itemOfJson? : Json.Value → Option Item
  | .bool b => some (.bool b)
  | .number (.integer n) =>
    if Int64.minValue.toInt ≤ n ∧ n ≤ Int64.maxValue.toInt then some (.int (Int64.ofInt n)) else none
  | .string s => some (.text s)
  | .object members => (addMembers? members empty).map Item.nested
  | _ => none

/-- The archive with the members put into it, one after the other. -/
def addMembers? : List (String × Json.Value) → Archive → Option Archive
  | [], a => some a
  | (k, v) :: rest, a => (itemOfJson? v).bind fun item => addMembers? rest (a.put k item)

end

/-- The archive that a JSON object stands for. -/
def ofJson? : Json.Value → Option Archive
  | .object members => addMembers? members empty
  | _ => none

/-- The archive that a text spells. -/
def ofText? (text : String) : Option Archive :=
  (Json.ofText? text).bind ofJson?

end GuidedLab.Archive
