import GuidedLab.Disk.Folder
import GuidedLab.Disk.Refusal
import GuidedLab.Path

/-!
# Disks

A disk is a tree of files, whose names are texts, and the position of the working folder. A path is
followed segment by segment from the root or from the working folder, and every segment but the last has
to be a folder that is there: `a/../b` needs an `a`. Where a path ends is a `Place`: a folder, a file,
or a name that is free in a folder.

Single operations do all or nothing and answer the disk afterwards or a refusal. The two that work on
many folders, `makeAll` and `removeAll`, may be refused when part is done, so they answer a disk in
any case.
-/

namespace GuidedLab

/-- A tree of files with a working folder. -/
structure Disk where
  root : Folder
  working : List String

/-- Where a path ends. -/
inductive Place where
  | folder (position : List String)
  | file (above : List String) (name : String) (content : ByteArray)
  /-- A name that is free, and whether only a folder can have it. -/
  | free (above : List String) (name : String) (folderOnly : Bool)

namespace Disk

instance : Inhabited Disk := ⟨⟨.nil, []⟩⟩

/-- The longest name in bytes. -/
def longestName : Nat := 255

/-- The longest path in bytes. -/
def longestPath : Nat := 4095

/-- What lies under a name in the folder at a position. -/
def entry? (d : Disk) (position : List String) (name : String) : Option Folder.Entry :=
  (d.root.at? position).bind (Folder.get? name)

/-- The place reached from a folder along segments. -/
def follow (d : Disk) (position : List String) : List String → Except Refusal Place
  | [] => .ok (.folder position)
  | s :: rest =>
    if Path.isIdle s then d.follow position rest
    else if s = ".." then d.follow position.dropLast rest
    else if longestName < s.utf8ByteSize then .error .tooLong
    else
      match d.entry? position s with
      | some (.folder _) => d.follow (position ++ [s]) rest
      | some (.file content) =>
        if rest.isEmpty then .ok (.file position s content) else .error .notFolder
      | none =>
        if rest.all (·.isEmpty) then .ok (.free position s !rest.isEmpty) else .error .missing

/-- The place that a path leads to. -/
def place (d : Disk) (p : Path) : Except Refusal Place :=
  if p.text.toList.contains (Char.ofNat 0) then .error .nulInName
  else if p.text.isEmpty then .error .missing
  else if longestPath < p.text.utf8ByteSize then .error .tooLong
  else if p.isAbsolute then d.follow [] p.segments
  else if (d.root.at? d.working).isNone then .error .missing
  else d.follow d.working p.segments

/-- Whether there is something at a path. -/
def isThere (d : Disk) (p : Path) : Bool :=
  match d.place p with
  | .ok (.folder _) | .ok (.file ..) => true
  | _ => false

/-- Whether there is a folder at a path. -/
def isFolder (d : Disk) (p : Path) : Bool :=
  match d.place p with
  | .ok (.folder _) => true
  | _ => false

/-- The position of what is at a path, seen from the root. -/
def position? (d : Disk) (p : Path) : Option (List String) :=
  match d.place p with
  | .ok (.folder position) => some position
  | .ok (.file above name _) => some (above ++ [name])
  | _ => none

/-- The content of the file at a path. -/
def read (d : Disk) (p : Path) : Except Refusal ByteArray :=
  match d.place p with
  | .ok (.file _ _ content) => .ok content
  | .ok (.folder _) => .error .folder
  | .ok (.free ..) => .error .missing
  | .error r => .error r

/-- The content of the file at a path as a text. -/
def readText (d : Disk) (p : Path) : Except Refusal String :=
  match d.read p with
  | .error r => .error r
  | .ok content =>
    match String.fromUTF8? content with
    | some s => .ok s
    | none => .error .notText

/-- The folders at a path by name. -/
def foldersIn (d : Disk) (p : Path) : Except Refusal (List String) :=
  match d.place p with
  | .ok (.folder position) =>
    .ok (((d.root.at? position).map Folder.entries).getD [] |>.filterMap fun
      | (name, .folder _) => some name
      | _ => none)
  | .ok (.file ..) => .error .notFolder
  | .ok (.free ..) => .error .missing
  | .error r => .error r

/-- The disk with the folder at a position changed. -/
def change (d : Disk) (position : List String) (f : Folder → Folder) : Disk :=
  { d with root := d.root.modify f position }

/-- The disk with a file at a path, new or in place of the file that was there. -/
def write (d : Disk) (p : Path) (content : ByteArray) : Except Refusal Disk :=
  match d.place p with
  | .ok (.file above name _) => .ok (d.change above (Folder.put name (.file content)))
  | .ok (.free above name false) => .ok (d.change above (Folder.put name (.file content)))
  | .ok (.free _ _ true) => .error .folder
  | .ok (.folder _) => .error .folder
  | .error r => .error r

/-- The disk with a new folder at a path. -/
def make (d : Disk) (p : Path) : Except Refusal Disk :=
  match d.place p with
  | .ok (.free above name _) => .ok (d.change above (Folder.put name (.folder .nil)))
  | .ok _ => .error .present
  | .error r => .error r

/-- The paths that have to be made, nearest first, until one can be made or is there; it is made if
it can. -/
def makeNearest (d : Disk) : List Path → Disk × List Path × Except Refusal Unit
  | [] => (d, [], .ok ())
  | p :: above =>
    if p.text.isEmpty || p.parent?.isNone then (d, [], .ok ())
    else
      match d.make p with
      | .ok d => (d, [], .ok ())
      | .error .missing =>
        let (d, pending, r) := d.makeNearest above
        (d, p :: pending, r)
      | .error .present => if d.isFolder p then (d, [], .ok ()) else (d, [], .error .present)
      | .error r => (d, [], .error r)

/-- Folders made one after the other; one that is there already is as good. -/
def makeEach (d : Disk) : List Path → Disk × Except Refusal Unit
  | [] => (d, .ok ())
  | p :: rest =>
    match d.make p with
    | .ok d => d.makeEach rest
    | .error r => if r = .present && d.isFolder p then d.makeEach rest else (d, .error r)

/-- A folder at a path, together with the folders above it that are missing. -/
def makeAll (d : Disk) (p : Path) : Disk × Except Refusal Unit :=
  if p.text.isEmpty || p.parent?.isNone then (d, .ok ())
  else
    match d.makeNearest p.ancestors with
    | (d, pending, .ok ()) => d.makeEach pending.reverse
    | (d, _, .error r) => (d, .error r)

/-- Whether the last meaningful segment names something, so that it can be taken away by it. -/
def endsInName (p : Path) : Bool :=
  match (p.segments.reverse.dropWhile (·.isEmpty)).head? with
  | some s => s ≠ "." && s ≠ ".."
  | none => false

/-- The disk without the file at a path. -/
def removeFile (d : Disk) (p : Path) : Except Refusal Disk :=
  match d.place p with
  | .ok (.file above name _) => .ok (d.change above (Folder.erase name))
  | .ok (.folder _) => .error .folder
  | .ok (.free ..) => .error .missing
  | .error r => .error r

/-- The folder at a path is emptied and taken away. A path that ends in no name gets as far as
emptying it. -/
def removeAll (d : Disk) (p : Path) : Disk × Except Refusal Unit :=
  match d.place p with
  | .ok (.folder position) =>
    if endsInName p && !position.isEmpty then
      (d.change position.dropLast (Folder.erase (position.getLast?.getD "")), .ok ())
    else (d.change position fun _ => .nil, .error .invalid)
  | .ok (.file ..) => (d, .error .notFolder)
  | .ok (.free ..) => (d, .error .missing)
  | .error r => (d, .error r)

/-- The disk with a copy of the file at a path. -/
def copy (d : Disk) (source target : Path) : Except Refusal Disk :=
  match d.place source with
  | .ok (.file _ _ content) => d.write target content
  | .ok (.folder _) => .error .notFile
  | .ok (.free ..) => .error .missing
  | .error r => .error r

/-- The disk with the file at one path moved to another, in place of the file that was there. -/
def rename (d : Disk) (source target : Path) : Except Refusal Disk :=
  match d.place source with
  | .ok (.file above name content) =>
    if !endsInName target then .error .busy
    else
      match d.place target with
      | .ok (.free above' name' false) | .ok (.file above' name' _) =>
        .ok ((d.change above (Folder.erase name)).change above' (Folder.put name' (.file content)))
      | .ok (.free _ _ true) => .error .notFolder
      | .ok (.folder _) => .error .folder
      | .error r => .error r
  | .ok (.folder _) => .error .folder
  | .ok (.free ..) => .error .missing
  | .error r => .error r

/-- Everything below the working folder. -/
def listing (d : Disk) : List String :=
  ((d.root.at? d.working).map (Folder.listing "")).getD []

end Disk

end GuidedLab
