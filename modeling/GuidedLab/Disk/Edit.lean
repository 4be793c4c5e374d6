import GuidedLab.Disk.Basic

/-!
# Edits

What turns one tree of files into another, as a list of single edits: first what is gone is removed,
then what is new or different is made. A file is edited only if its content has changed, and a folder
that is there in both trees is looked into and not edited itself.
-/

namespace GuidedLab

/-- A single edit, at a position seen from the root. -/
inductive Edit where
  | removeFile (position : List String)
  | removeFolder (position : List String)
  | makeFolder (position : List String)
  | writeFile (position : List String) (content : ByteArray)

namespace Folder

/-- The edits that remove what another tree no longer has under the same name and kind. -/
def removals (above : List String) (after : Folder) : Folder → List Edit
  | nil => []
  | file name _ rest =>
    (match after.get? name with
      | some (.file _) => []
      | _ => [.removeFile (above ++ [name])]) ++ removals above after rest
  | folder name inner rest =>
    (match after.folder? name with
      | some f => removals (above ++ [name]) f inner
      | none => [.removeFolder (above ++ [name])]) ++ removals above after rest

/-- The edits that make what another tree does not have yet. -/
def additions (above : List String) (before : Folder) : Folder → List Edit
  | nil => []
  | file name content rest =>
    (match before.get? name with
      | some (.file old) =>
        if old.data = content.data then [] else [.writeFile (above ++ [name]) content]
      | _ => [.writeFile (above ++ [name]) content]) ++ additions above before rest
  | folder name inner rest =>
    (match before.folder? name with
      | some f => additions (above ++ [name]) f inner
      | none => .makeFolder (above ++ [name]) :: additions (above ++ [name]) .nil inner) ++
      additions above before rest

/-- The edits that turn one tree into another. -/
def edits (before after : Folder) : List Edit :=
  removals [] after before ++ additions [] before after

@[simp] theorem edits_nil_nil : edits nil nil = [] := rfl

end Folder

end GuidedLab
