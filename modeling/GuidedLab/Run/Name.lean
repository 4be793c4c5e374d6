import GuidedLab.Calendar

/-!
# Run names

A run is named by the moment it was started and a seed, usually the name of the script. The name of a
run with an empty seed is the stamp of the moment alone. Any name that is a plain file name can be
given to a run, so what a name tells about its run is optional: a name of the shape of a stamp with an
optional seed tells the seed, and also the moment if the stamp is one of the calendar.
-/

namespace GuidedLab.Run

/-- The name of a run that is started at a moment. -/
def nameAt (m : Moment) (seed : String) : String :=
  if seed.isEmpty then m.stamp else m.stamp ++ "_" ++ seed

/-- Whether a text can name a run: it names something in a folder and nothing elsewhere. -/
def isName (name : String) : Bool :=
  name ≠ "" && name ≠ "." && name ≠ ".." && !name.toList.contains '/' && !name.toList.contains '\\'

/-- What a name tells about a run. -/
structure Entry where
  name : String
  started : Option Moment
  seed : Option String
deriving DecidableEq, Repr

/-- The shape of a stamp, with `0` for a digit. -/
def stampShape : List Char := "0000-00-00_00-00-00".toList

/-- Whether characters have a shape, digits of any script included. -/
def hasShape : List Char → List Char → Bool
  | [], [] => true
  | s :: shape, c :: cs => (if s = '0' then Text.isDecimalDigit c else c = s) && hasShape shape cs
  | _, _ => false

/-- The stamp and the seed of a name of that shape. -/
def split? (name : String) : Option (List Char × Option String) :=
  let stamp := name.toList.take stampShape.length
  let rest := name.toList.drop stampShape.length
  if hasShape stampShape stamp then
    match rest with
    | [] => some (stamp, none)
    | '_' :: c :: seed =>
      if (c :: seed).contains '\n' then none else some (stamp, some (String.ofList (c :: seed)))
    | _ => none
  else none

/-- What a name tells. -/
def Entry.ofName (name : String) : Entry :=
  match split? name with
  | none => ⟨name, none, none⟩
  | some (stamp, seed) => ⟨name, Moment.ofStamp? stamp, seed⟩

end GuidedLab.Run
