import GuidedLab.Text.Split

/-!
# Paths

To the system a path is a row of bytes. Here are the paths that are texts, which are those that are typed,
configured or made from names; a disk with names that are no texts is not described. The one path that may
be any bytes is that of a recording (see `RawPath`).

A path is kept as the text it was written in, since that text is shown, saved and joined. What it
*means* is its list of `steps`: repeated separators and inner `.` segments mean nothing, a leading
separator and a leading `.` are steps of their own. Two paths are the same place relative to
anything when their steps agree (`sameSteps`), whatever their texts.

To take a path apart without losing its text, it is read as an anchor (nothing, the root or a leading
`.`) and a body of raw segments. `parent?`, `fileName?` and `stripPrefix?` work on that form and
drop meaningless segments only at the ends they cut.

A path is *contained* when it has a step and all its steps are plain names: joined to a directory it
leads strictly below that directory.
-/

namespace GuidedLab

/-- A place in a tree of files, as written. Only paths that are texts are of this form. -/
structure Path where
  text : String
deriving DecidableEq, Repr

namespace Path

instance : Inhabited Path := ⟨⟨""⟩⟩

/-- Where a path starts: where it is used, at the root, or at an explicit `.`. -/
inductive Anchor where
  | here
  | root
  | dot
deriving DecidableEq, Repr

/-- One meaningful part of a path. -/
inductive Step where
  | root
  | current
  | parent
  | name (n : String)
deriving DecidableEq, Repr

/-- A segment that means nothing inside a path. -/
def isIdle (segment : String) : Bool :=
  segment = "" || segment = "."

/-- The segments between the separators. -/
def segments (p : Path) : List String :=
  Text.split '/' p.text

/-- The anchor and the raw segments after it. -/
def anchored (p : Path) : Anchor × List String :=
  match p.segments with
  | [] => (.here, [])
  | [s] => if s = "." then (.dot, []) else (.here, [s])
  | s :: rest => if s = "" then (.root, rest) else if s = "." then (.dot, rest) else (.here, s :: rest)

/-- Where the path starts. -/
def anchor (p : Path) : Anchor := p.anchored.1

/-- The raw segments after the anchor. -/
def body (p : Path) : List String := p.anchored.2

/-- The step an anchor stands for, if any. -/
def Anchor.step? : Anchor → Option Step
  | .here => none
  | .root => some .root
  | .dot => some .current

/-- The step a segment stands for. -/
def Step.ofSegment (s : String) : Step :=
  if s = ".." then .parent else .name s

/-- The steps of raw segments. -/
def stepsOf (body : List String) : List Step :=
  (body.filter fun s => !isIdle s).map Step.ofSegment

/-- What the path means. -/
def steps (p : Path) : List Step :=
  p.anchor.step?.toList ++ stepsOf p.body

/-- Two paths of the same meaning. -/
def sameSteps (p q : Path) : Bool :=
  p.steps = q.steps

/-- A path that starts at the root. -/
def isAbsolute (p : Path) : Bool :=
  p.anchor = .root

/-- Not empty and made of plain names only. -/
def isContained (p : Path) : Bool :=
  !p.steps.isEmpty && p.steps.all fun
    | .name _ => true
    | _ => false

/-- The raw segments without the meaningless ones at the end. -/
def trimEnd (body : List String) : List String :=
  (body.reverse.dropWhile isIdle).reverse

/-- The path with an anchor and raw segments. -/
def ofAnchored (a : Anchor) (body : List String) : Path :=
  let rest := Text.join '/' body
  match a with
  | .here => ⟨rest⟩
  | .root => ⟨"/" ++ rest⟩
  | .dot => if body.isEmpty then ⟨"."⟩ else ⟨"./" ++ rest⟩

/-- The second path seen from the first: an absolute one stands for itself. -/
def join (p q : Path) : Path :=
  if q.isAbsolute then q
  else if p.text.isEmpty || p.text.toList.getLast? = some '/' then ⟨p.text ++ q.text⟩
  else ⟨p.text ++ "/" ++ q.text⟩

/-- A text taken as a path below a directory. -/
def child (p : Path) (name : String) : Path :=
  p.join ⟨name⟩

/-- The last step, if it is a plain name. -/
def fileName? (p : Path) : Option String :=
  match (trimEnd p.body).getLast? with
  | some s => if s = ".." then none else some s
  | none => none

/-- The file name without what follows its last dot; a dot at the front does not count. -/
def fileStem? (p : Path) : Option String :=
  p.fileName?.map fun name =>
    match (Text.split '.' name).dropLast with
    | [] => name
    | parts =>
      let stem := Text.join '.' parts
      if stem.isEmpty then name else stem

/-- The path without its last step; the root and the empty path have none. -/
def parent? (p : Path) : Option Path :=
  match trimEnd p.body with
  | [] => if p.anchor = .dot then some ⟨""⟩ else none
  | s :: rest => some (ofAnchored p.anchor (trimEnd (s :: rest).dropLast))

/-- The parents of a path with trimmed raw segments, nearest first. -/
def parentsFrom (a : Anchor) : Nat → List String → List Path
  | 0, _ => []
  | n + 1, body =>
    match trimEnd body with
    | [] => if a = .dot then [⟨""⟩] else []
    | s :: rest =>
      let up := trimEnd (s :: rest).dropLast
      ofAnchored a up :: parentsFrom a n up

/-- The path, then its parent, and so on up to the last that has none. -/
def ancestors (p : Path) : List Path :=
  p :: parentsFrom p.anchor (p.body.length + 1) p.body

/-- The raw segments after the first so many meaningful ones. -/
def dropSteps : Nat → List String → List String
  | 0, body => body
  | _ + 1, [] => []
  | n + 1, s :: body => if isIdle s then dropSteps (n + 1) body else dropSteps n body

/-- What follows a leading path, compared step by step. With no step to take off, the path stays as
written up to its meaningless end. -/
def stripPrefix? (base p : Path) : Option Path :=
  if base.steps.isPrefixOf p.steps then
    match base.steps with
    | [] => some (ofAnchored p.anchor (trimEnd p.body))
    | taken =>
      let rest := dropSteps (taken.length - p.anchor.step?.toList.length) p.body
      some (ofAnchored .here (trimEnd (rest.dropWhile isIdle)))
  else none

/-- The position that a path leads to from a position: meaningless segments stay, `..` goes up and a
name goes down. -/
def positionFrom (start : List String) (p : Path) : List String :=
  p.segments.foldl (fun position s =>
    if isIdle s then position else if s = ".." then position.dropLast else position ++ [s])
    (if p.isAbsolute then [] else start)

/-- The path from the root to a position. -/
def ofPosition (position : List String) : Path := ⟨"/" ++ Text.join '/' position⟩

end Path

end GuidedLab
