/-!
# Folders

A folder holds files and folders under names. It is a plain inductive type, one entry and the rest,
so that what runs over a whole tree of files recurses on the structure. Entries are kept in the order
of their names: `put` finds the place.

A *position* in a folder is a row of names that lead from folder to folder (`at?`); `modify` changes
the folder at a position. The view of a folder is `get?`.
-/

namespace GuidedLab

/-- What a folder holds: one entry and the rest. -/
inductive Folder where
  | nil
  | file (name : String) (content : ByteArray) (rest : Folder)
  | folder (name : String) (inner rest : Folder)

namespace Folder

/-- What lies under a name. -/
inductive Entry where
  | file (content : ByteArray)
  | folder (inner : Folder)

instance : Inhabited Folder := ⟨.nil⟩

/-- The folder with an entry in front. -/
def cons (name : String) (entry : Entry) (rest : Folder) : Folder :=
  match entry with
  | .file content => .file name content rest
  | .folder inner => .folder name inner rest

/-- The entries by name. -/
def entries : Folder → List (String × Entry)
  | nil => []
  | file name content rest => (name, .file content) :: rest.entries
  | folder name inner rest => (name, .folder inner) :: rest.entries

/-- The entry under a name. -/
def get? (name : String) : Folder → Option Entry
  | nil => none
  | file n content rest => if n = name then some (.file content) else rest.get? name
  | folder n inner rest => if n = name then some (.folder inner) else rest.get? name

/-- The folder with an entry put under a name, in place of what was there. -/
def put (name : String) (entry : Entry) : Folder → Folder
  | nil => cons name entry nil
  | file n content rest =>
    if name < n then cons name entry (.file n content rest)
    else if name = n then cons name entry rest
    else .file n content (rest.put name entry)
  | folder n inner rest =>
    if name < n then cons name entry (.folder n inner rest)
    else if name = n then cons name entry rest
    else .folder n inner (rest.put name entry)

/-- The folder without the entries under a name. -/
def erase (name : String) : Folder → Folder
  | nil => nil
  | file n content rest =>
    if n = name then rest.erase name else .file n content (rest.erase name)
  | folder n inner rest =>
    if n = name then rest.erase name else .folder n inner (rest.erase name)

/-- The folder under a name. -/
def folder? (name : String) (f : Folder) : Option Folder :=
  match f.get? name with
  | some (.folder inner) => some inner
  | _ => none

/-- The folder at a position. -/
def at? (f : Folder) : List String → Option Folder
  | [] => some f
  | name :: rest => (f.folder? name).bind fun inner => inner.at? rest

/-- The folder with the folder at a position changed; without such a folder nothing is changed. -/
def modify (change : Folder → Folder) (f : Folder) : List String → Folder
  | [] => change f
  | name :: rest =>
    match f.folder? name with
    | some inner => f.put name (.folder (inner.modify change rest))
    | none => f

/-- The names of everything below, a folder's with a slash at the end and what it holds after it. -/
def listing (above : String) : Folder → List String
  | nil => []
  | file name _ rest => (above ++ name) :: rest.listing above
  | folder name inner rest =>
    (above ++ name ++ "/") :: (inner.listing (above ++ name ++ "/") ++ rest.listing above)

@[simp] theorem get?_nil (name : String) : nil.get? name = none := rfl

theorem get?_cons (name n : String) (entry : Entry) (rest : Folder) :
    (cons n entry rest).get? name = if n = name then some entry else rest.get? name := by
  cases entry <;> rfl

@[simp] theorem get?_put_self (name : String) (entry : Entry) (f : Folder) :
    (f.put name entry).get? name = some entry := by
  induction f with
  | nil => simp [put, get?_cons]
  | file n content rest ih | folder n inner rest _ ih =>
    rw [put]
    split
    · simp [get?_cons]
    · split
      · simp [get?_cons]
      · next h => rw [get?, if_neg (Ne.symm h), ih]

theorem get?_put_of_ne {name other : String} (h : other ≠ name) (entry : Entry) (f : Folder) :
    (f.put name entry).get? other = f.get? other := by
  induction f with
  | nil => simp [put, get?_cons, Ne.symm h]
  | file n content rest ih | folder n inner rest _ ih =>
    rw [put]
    split
    · rw [get?_cons, if_neg (Ne.symm h)]
    · split
      · next e => rw [get?_cons, get?, if_neg (Ne.symm h), if_neg (e ▸ Ne.symm h)]
      · rw [get?, get?, ih]

@[simp] theorem get?_erase_self (name : String) (f : Folder) : (f.erase name).get? name = none := by
  induction f with
  | nil => rfl
  | file n content rest ih | folder n inner rest _ ih =>
    rw [erase]
    split
    · exact ih
    · next h => rw [get?, if_neg h, ih]

theorem get?_erase_of_ne {name other : String} (h : other ≠ name) (f : Folder) :
    (f.erase name).get? other = f.get? other := by
  induction f with
  | nil => rfl
  | file n content rest ih | folder n inner rest _ ih =>
    rw [erase]
    split
    · next e => rw [get?, if_neg (e ▸ Ne.symm h), ih]
    · rw [get?, get?, ih]

@[simp] theorem at?_nil (f : Folder) : f.at? [] = some f := rfl

theorem at?_cons (f : Folder) (name : String) (rest : List String) :
    f.at? (name :: rest) = (f.folder? name).bind fun inner => inner.at? rest := rfl

/-- The folder at a changed position is the changed folder. -/
theorem at?_modify_self {change : Folder → Folder} {f g : Folder} {p : List String}
    (h : f.at? p = some g) : (f.modify change p).at? p = some (change g) := by
  induction p generalizing f with
  | nil => cases h; rfl
  | cons name p ih =>
    rw [at?_cons] at h
    cases hi : f.folder? name with
    | none => rw [hi] at h; cases h
    | some inner =>
      rw [hi] at h
      rw [modify, hi]
      simp only [at?_cons, folder?, get?_put_self, Option.bind_some]
      exact ih h

end Folder

end GuidedLab
