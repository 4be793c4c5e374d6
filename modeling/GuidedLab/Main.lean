import GuidedLab.CommandLine.Commands
import GuidedLab.Disk.Edit
import Std.Time

/-!
# The program

The program takes the part of the system's files that its arguments reach into a disk, runs on it,
and makes the edits that turn the files into what the disk holds afterwards. What is decided is
decided by `CommandLine.run`; here files are only read and written, and lines printed.
-/

namespace GuidedLab

/-- The folder at a path of the system with everything below it. -/
partial def folderAt (path : String) : IO Folder := do
  let here ← IO.currentDir
  let mut f := Folder.nil
  for entry in ← (here / path).readDir do
    let below := path ++ "/" ++ entry.fileName
    if ← (here / below).isDir then
      f := f.put entry.fileName (.folder (← folderAt below))
    else
      f := f.put entry.fileName (.file (← IO.FS.readBinFile below))
  return f

/-- The disk with what the system has at a position, and the folders above it. -/
def taken (d : Disk) (position : List String) : IO Disk := do
  let here ← IO.currentDir
  let mut d := d
  for n in List.range position.length do
    let above := position.take n
    let name := position.getD n ""
    let path := (Path.ofPosition (position.take (n + 1))).text
    if ← (here / path).isDir then
      let isLast := n + 1 = position.length
      let inner ← if isLast then folderAt path else pure .nil
      if isLast || (d.entry? above name).isNone then
        d := d.change above (Folder.put name (.folder inner))
    else if ← (here / path).pathExists then
      d := d.change above (Folder.put name (.file (← IO.FS.readBinFile path)))
  return d

/-- An edit of the system's files. A file is written beside its place and moved into it. -/
def make : Edit → IO Unit
  | .removeFile position => IO.FS.removeFile (Path.ofPosition position).text
  | .removeFolder position => IO.FS.removeDirAll (Path.ofPosition position).text
  | .makeFolder position => IO.FS.createDirAll (Path.ofPosition position).text
  | .writeFile position content => do
    let path := (Path.ofPosition position).text
    let draft := path ++ Job.draftEnding
    IO.FS.writeBinFile draft content
    IO.FS.rename draft path

/-- The moment that it is now, by the local clock. -/
def localMoment : IO Moment := do
  let t ← Std.Time.PlainDateTime.now
  return ⟨t.year.toInt, t.month.val.toNat, t.day.val.toNat, t.hour.val.toNat, t.minute.val.toNat,
    t.second.val.toNat⟩

/-- How the program is called. -/
def usageLines : List String :=
  ["Usage: lablet [--config FILE] COMMAND", "Commands: " ++ " ".intercalate CommandLine.commandNames]

/-- What is shown of an ending. -/
def tell : CommandLine.Ending → IO Unit
  | .shown _ lines => lines.forM IO.println
  | .help => usageLines.forM IO.println
  | .rejected => do
    IO.eprintln "error: unexpected arguments"
    usageLines.forM IO.eprintln
  | .failed f => IO.eprintln f.message

/-- The program with its arguments: the exit code. -/
def program (arguments : List String) : IO UInt32 := do
  let here ← IO.currentDir
  let working := Path.positionFrom [] ⟨here.toString⟩
  let start ← taken ⟨.nil, []⟩ working.dropLast
  let mut before : Disk :=
    ⟨(start.change working.dropLast (Folder.put (working.getLast?.getD "") (.folder .nil))).root,
      working⟩
  for _ in List.range 2 do
    for p in ((CommandLine.reach arguments).run before).1 do
      before ← taken before (p.positionFrom working)
  let now ← localMoment
  let (ending, after) := (CommandLine.run now arguments).run before
  (before.root.edits after.root).forM make
  tell ending
  return ending.code.toUInt32

end GuidedLab

/-- The program. -/
def main (arguments : List String) : IO UInt32 := GuidedLab.program arguments
