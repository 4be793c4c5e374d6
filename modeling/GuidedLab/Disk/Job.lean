import GuidedLab.Disk.Basic
import GuidedLab.Failure

/-!
# Jobs

A job works on a disk and ends in an answer or a failure. What it did to the disk before it failed
stays done. Every step that the disk can refuse says what is being done, for the failure.
-/

namespace GuidedLab

/-- Work on a disk that may fail. -/
abbrev Job (α : Type) := ExceptT Failure (StateM Disk) α

namespace Job

variable {α β : Type}

/-- A job as a function on disks. -/
def onDisk (work : Disk → Except Failure α × Disk) : Job α := work

/-- An answer that is there already. -/
def ofAnswer (r : Except Failure α) : Job α := onDisk fun d => (r, d)

/-- A question to the disk. -/
def ask (question : Disk → α) : Job α := onDisk fun d => (.ok (question d), d)

/-- A question that the disk may refuse. -/
def query (context : String) (question : Disk → Except Refusal α) : Job α :=
  onDisk fun d => (during context (ofDisk (question d)), d)

/-- A change of the disk that is done or refused as a whole. -/
def change (context : String) (work : Disk → Except Refusal Disk) : Job Unit :=
  onDisk fun d =>
    match work d with
    | .ok d => (.ok (), d)
    | .error r => (during context (ofDisk (.error r)), d)

/-- A change of the disk that may be refused when part of it is done. -/
def changeInPart (context : String) (work : Disk → Disk × Except Refusal Unit) : Job Unit :=
  onDisk fun d =>
    let (d, r) := work d
    (during context (ofDisk r), d)

/-- A job whose failure tells what was being done. -/
def within (context : String) (t : Job α) : Job α :=
  onDisk fun d =>
    let (r, d) := t.run d
    (during context r, d)

/-- A job that is cleaned up after if it fails. -/
def cleaning (cleanup : Disk → Disk) (t : Job α) : Job α :=
  onDisk fun d =>
    match t.run d with
    | (.ok a, d) => (.ok a, d)
    | (.error f, d) => (.error f, cleanup d)

/-- A job whose failure is part of its answer. -/
def attempt (t : Job α) : Job (Except Failure α) :=
  onDisk fun d =>
    let (r, d) := t.run d
    (.ok r, d)

/-- The failure of a broken rule. -/
def refuse (rule : String) : Job α := ofAnswer (.error (.ofRule rule))

/-- The value of an option; without one a rule is broken. -/
def require (rule : String) : Option α → Job α
  | some a => ofAnswer (.ok a)
  | none => refuse rule

/-- What the name of a file ends in while its content is on its way. -/
def draftEnding : String := ".tmp"

/-- A text as the content of the file at a path. It is written beside the file and moved into its
place, so the file is never seen half written. Folders above it are made. -/
def replaceText (p : Path) (text : String) : Job Unit := do
  let above ← require s!"path missing parent {p.text}" p.parent?
  changeInPart s!"create directory {above.text}" fun d => d.makeAll above
  let name ← require s!"path missing file name {p.text}" p.fileName?
  let draft := above.child (name ++ draftEnding)
  change s!"write temp file {draft.text}" fun d => d.write draft text.toUTF8
  change s!"replace {p.text}" fun d => d.rename draft p

end Job

end GuidedLab
