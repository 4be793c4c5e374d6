/-!
# TOML values

The values that a TOML text can write, and how a document of them comes together. A document is a
table. Tables come about in four ways, and what may still be put into a table depends on it: a table
with a header, a table that is implied by the header of a table in it, a table that is implied by
a dotted key, and an inline table, which is closed. A list of tables grows by one with each of its
headers, and a path through it leads into its last table.

`descend` walks a path and makes the tables that are missing. `defineTable`, `appendTable` and
`assign` are the three statements of a document: each has no answer when it would define something
twice.
-/

namespace GuidedLab.Toml

/-- How a table came about. -/
inductive Origin where
  | header
  | implied
  | dotted
  | inline
deriving DecidableEq, Repr

/-- A value. Real numbers are kept as written: a sign, digits and an exponent. -/
inductive Value where
  | text (s : String)
  | bool (b : Bool)
  | integer (n : Int)
  | real (negative : Bool) (significand : Nat) (exponent : Int)
  /-- A number that no digits write: an infinite one or none at all. -/
  | unwritable
  | moment
  | array (items : List Value)
  | table (origin : Origin) (entries : List (String × Value))
  | tables (last : List (String × Value)) (before : List Value)

/-- Keys with their values, in the order of the text. -/
abbrev Entries := List (String × Value)

namespace Value

instance : Inhabited Value := ⟨.unwritable⟩

/-- The value under a key. -/
def find? (key : String) : Entries → Option Value
  | [] => none
  | (k, v) :: rest => if k = key then some v else find? key rest

/-- The entries with another value under a key. -/
def replace (key : String) (v : Value) : Entries → Entries
  | [] => []
  | (k, w) :: rest => if k = key then (k, v) :: rest else (k, w) :: replace key v rest

/-- A table that is worked on: how it came about and what it holds. -/
abbrev Table := Origin × Entries

/-- A table with the table at the end of a path worked on. Missing tables are made, by a header or by
a dotted key. A dotted key does not lead into a table with a header. -/
def descend (byKey : Bool) (work : Table → Option Table) : List String → Table → Option Table
  | [], t => work t
  | key :: rest, (origin, entries) =>
    match find? key entries with
    | none => do
      let (o, es) ← descend byKey work rest (if byKey then .dotted else .implied, [])
      return (origin, entries ++ [(key, .table o es)])
    | some (.table o es) =>
      if o = .inline || (byKey && o = .header) then none
      else do
        let (o, es) ← descend byKey work rest (o, es)
        return (origin, replace key (.table o es) entries)
    | some (.tables last before) => do
      let (_, last) ← descend byKey work rest (.header, last)
      return (origin, replace key (.tables last before) entries)
    | some _ => none

/-- The header of a table as the last part of a path. It defines the table, or makes an implied table
one with a header. -/
def defineTable (key : String) (t : Table) : Option Table :=
  match find? key t.2 with
  | none => some (t.1, t.2 ++ [(key, .table .header [])])
  | some (.table .implied entries) => some (t.1, replace key (.table .header entries) t.2)
  | some _ => none

/-- The header of a list of tables as the last part of a path. It starts the next table. -/
def appendTable (key : String) (t : Table) : Option Table :=
  match find? key t.2 with
  | none => some (t.1, t.2 ++ [(key, .tables [] [])])
  | some (.tables last before) =>
    some (t.1, replace key (.tables [] (.table .header last :: before)) t.2)
  | some _ => none

/-- A value put under a key that is not there yet. A key with dots puts it only into a table that such
keys made. -/
def put (isDotted : Bool) (key : String) (v : Value) (t : Table) : Option Table :=
  if isDotted = (t.1 = .dotted) then
    match find? key t.2 with
    | none => some (t.1, t.2 ++ [(key, v)])
    | some _ => none
  else none

/-- A value assigned to a key, given as the parts before the last dot and the last part. -/
def assign (path : List String) (key : String) (v : Value) : Table → Option Table :=
  descend true (put (!path.isEmpty) key v) path

end Value

end GuidedLab.Toml
