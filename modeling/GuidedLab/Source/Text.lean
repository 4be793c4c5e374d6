import GuidedLab.Json.Reader
import GuidedLab.Failure
import GuidedLab.Script
import GuidedLab.Source.Reading
import GuidedLab.Source.Building

/-!
# The text of a script

A script is written as JSON. Its text is read, its form is looked at, the draft is read from it and
the tree is built; each step has a failure of its own.
-/

namespace GuidedLab.Source

/-- The cause that a misfit is. -/
def Misfit.cause : Misfit → Cause
  | .fault f => .fault f
  | m => .rule m.message

/-- The value that a text spells. -/
def valueOf (text : String) : Except Failure Json.Value :=
  match Json.ofText? text with
  | some v => .ok v.settled
  | none => .error ⟨["parse script json"], .json⟩

/-- The draft that a value in the form of a script spells. -/
def draftOf (v : Json.Value) : Except Failure Draft :=
  if Schema.isScript v then
    match Draft.ofJson? v with
    | some draft => .ok draft
    | none => .error ⟨["deserialize script"], .json⟩
  else .error (.of .form)

/-- The script of a draft, as it is before anything is done. -/
def scriptOf (draft : Draft) : Except Failure Script :=
  match draft.tree? with
  | .ok tree => .ok (Script.new draft.title tree)
  | .error m => .error (.of m.cause)

/-- The script that a text spells. -/
def script (text : String) : Except Failure Script := do
  let v ← valueOf text
  let draft ← draftOf v
  scriptOf draft

end GuidedLab.Source
