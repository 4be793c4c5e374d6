import GuidedLab.Disk.Basic

/-!
# What is found where

The view of a disk is what is found at each position: a folder, a file with its content, or nothing.
Every change of a disk puts or erases an entry in the folder at a position, or empties that folder, and
each of the three has one equation through the view. They say everything about the change: what is
found at or below the position that is changed, and that at all other positions the same is found.
-/

namespace GuidedLab

/-- What is found at a position. -/
inductive Found where
  | folder
  | file (content : ByteArray)

instance : DecidableEq Found
  | .folder, .folder => isTrue rfl
  | .folder, .file _ => isFalse Found.noConfusion
  | .file _, .folder => isFalse Found.noConfusion
  | .file a, .file b => decidable_of_iff (a.data = b.data) (by rw [Found.file.injEq, ByteArray.ext_iff])

namespace Folder

/-- What is found in a folder at a position. -/
def find? (f : Folder) : List String → Option Found
  | [] => some .folder
  | name :: rest =>
    match f.get? name with
    | some (.folder inner) => inner.find? rest
    | some (.file content) => if rest = [] then some (.file content) else none
    | none => none

/-- What is found at a position seen from an entry. -/
def Entry.find? : Entry → List String → Option Found
  | .folder inner, p => inner.find? p
  | .file content, p => if p = [] then some (.file content) else none

@[simp] theorem find?_nil (f : Folder) : f.find? [] = some .folder := rfl

theorem find?_cons (f : Folder) (name : String) (rest : List String) :
    f.find? (name :: rest) = (f.get? name).bind fun e => e.find? rest := by
  rw [find?]
  cases f.get? name with
  | none => rfl
  | some e => cases e <;> rfl

@[simp] theorem find?_empty_cons (name : String) (rest : List String) :
    nil.find? (name :: rest) = none := rfl

theorem find?_put (f : Folder) (name : String) (e : Entry) (q : List String) :
    (f.put name e).find? q = if [name] <+: q then e.find? (q.drop 1) else f.find? q := by
  cases q with
  | nil => simp
  | cons n rest =>
      rw [find?_cons, find?_cons]
      by_cases h : n = name
      · subst h
        simp
      · rw [get?_put_of_ne h]
        simp [List.cons_prefix_cons, Ne.symm h]

theorem find?_erase (f : Folder) (name : String) (q : List String) :
    (f.erase name).find? q = if [name] <+: q then none else f.find? q := by
  cases q with
  | nil => simp
  | cons n rest =>
      rw [find?_cons, find?_cons]
      by_cases h : n = name
      · subst h
        simp
      · rw [get?_erase_of_ne h]
        simp [List.cons_prefix_cons, Ne.symm h]

theorem folder?_eq_some_iff {f inner : Folder} {name : String} :
    f.folder? name = some inner ↔ f.get? name = some (.folder inner) := by
  rw [folder?]
  split
  · next h => rw [h, Option.some.injEq, Option.some.injEq, Entry.folder.injEq]
  · next h =>
      constructor
      · intro e
        cases e
      · intro e
        exact absurd e (h inner)

/-- Below a folder is found what the folder holds. -/
theorem find?_append {f g : Folder} {p : List String} (h : f.at? p = some g) (q : List String) :
    f.find? (p ++ q) = g.find? q := by
  induction p generalizing f with
  | nil =>
      cases h
      rfl
  | cons name p ih =>
      rw [at?_cons] at h
      obtain ⟨inner, hi, h⟩ := Option.bind_eq_some_iff.1 h
      rw [List.cons_append, find?_cons, folder?_eq_some_iff.1 hi]
      exact ih h

theorem find?_eq_folder_iff {f : Folder} {p : List String} :
    f.find? p = some .folder ↔ ∃ g, f.at? p = some g := by
  induction p generalizing f with
  | nil => exact ⟨fun _ => ⟨f, rfl⟩, fun _ => rfl⟩
  | cons name p ih =>
      rw [find?_cons, at?_cons, folder?]
      cases f.get? name with
      | none => simp only [Option.bind_none, reduceCtorEq, exists_false]
      | some e =>
          cases e with
          | folder inner => exact ih
          | file content =>
              constructor
              · intro h
                simp only [Option.bind_some, Entry.find?] at h
                split at h <;> cases h
              · rintro ⟨g, h⟩
                cases h

/-- Whatever has something below it is a folder. -/
theorem find?_eq_folder_of_append {f : Folder} {p q : List String} (hq : q ≠ [])
    (h : f.find? (p ++ q) ≠ none) : f.find? p = some .folder := by
  induction p generalizing f with
  | nil => rfl
  | cons name p ih =>
      rw [List.cons_append, find?_cons] at h
      rw [find?_cons]
      cases hg : f.get? name with
      | none =>
          rw [hg] at h
          exact absurd rfl h
      | some e =>
          rw [hg, Option.bind_some] at h
          cases e with
          | folder inner => exact ih h
          | file content =>
              rw [Entry.find?, if_neg (by simp [hq])] at h
              exact absurd rfl h

/-- What is found after the folder at a position has been changed. -/
theorem find?_modify {change : Folder → Folder} {f g : Folder} {p : List String}
    (h : f.at? p = some g) (q : List String) :
    (f.modify change p).find? q =
      if p <+: q then (change g).find? (q.drop p.length) else f.find? q := by
  induction p generalizing f q with
  | nil =>
      cases h
      simp [modify]
  | cons name p ih =>
      obtain ⟨inner, hi, hinner⟩ := Option.bind_eq_some_iff.1 (at?_cons f name p ▸ h)
      rw [modify, hi]
      cases q with
      | nil => simp
      | cons n rest =>
          rw [find?_put, find?_cons]
          by_cases hn : n = name
          · subst hn
            rw [folder?_eq_some_iff.1 hi, if_pos (by simp [List.cons_prefix_cons]), Option.bind_some]
            show (inner.modify change p).find? rest = _
            rw [ih hinner rest]
            simp [List.cons_prefix_cons, Entry.find?]
          · simp [List.cons_prefix_cons, Ne.symm hn]

end Folder

namespace Disk

variable {d d' : Disk} {p q : List String}

/-- What is found on a disk at a position. -/
def find? (d : Disk) (p : List String) : Option Found := d.root.find? p

/-- The second disk is the first one with another entry at a position, or with none. -/
structure Replaces (p : List String) (e : Option Folder.Entry) (d d' : Disk) : Prop where
  working : d'.working = d.working
  find?_eq : ∀ q, d'.find? q = if p <+: q then e.bind fun e => e.find? (q.drop p.length) else d.find? q

@[simp] theorem working_change (d : Disk) (p : List String) (f : Folder → Folder) :
    (d.change p f).working = d.working := rfl

theorem find?_eq_folder_of_below (hpq : p <+: q) (ne : p ≠ q) (h : d.find? q ≠ none) :
    d.find? p = some .folder := by
  obtain ⟨t, rfl⟩ := hpq
  exact Folder.find?_eq_folder_of_append (by simpa using ne) h

/-- Nothing is found below what is no folder. -/
theorem find?_eq_none_of_below (hpq : p <+: q) (ne : p ≠ q) (h : d.find? p ≠ some .folder) :
    d.find? q = none :=
  Classical.not_not.1 fun hsome => h (find?_eq_folder_of_below hpq ne hsome)

theorem not_prefix_of_folder (hp : d.find? p ≠ some .folder) (hq : d.find? q = some .folder) :
    ¬ p <+: q := by
  intro hpq
  by_cases heq : p = q
  · exact hp (heq ▸ hq)
  · rw [find?_eq_none_of_below hpq heq hp] at hq
    cases hq

theorem replaces_put (h : d.find? p = some .folder) (name : String) (e : Folder.Entry) :
    Replaces (p ++ [name]) (some e) d (d.change p (Folder.put name e)) := by
  obtain ⟨g, hg⟩ := Folder.find?_eq_folder_iff.1 h
  refine ⟨rfl, ?_⟩
  intro q
  rw [find?, change, Folder.find?_modify hg, find?]
  by_cases hp : p <+: q
  · obtain ⟨rest, rfl⟩ := hp
    rw [if_pos (List.prefix_append p rest), List.drop_left, Folder.find?_put,
      Folder.find?_append hg]
    simp [← List.drop_drop]
  · rw [if_neg hp, if_neg]
    exact fun hpn => hp ((List.prefix_append p [name]).trans hpn)

theorem replaces_erase (h : d.find? p = some .folder) (name : String) :
    Replaces (p ++ [name]) none d (d.change p (Folder.erase name)) := by
  obtain ⟨g, hg⟩ := Folder.find?_eq_folder_iff.1 h
  refine ⟨rfl, ?_⟩
  intro q
  rw [find?, change, Folder.find?_modify hg, find?]
  by_cases hp : p <+: q
  · obtain ⟨rest, rfl⟩ := hp
    rw [if_pos (List.prefix_append p rest), List.drop_left, Folder.find?_erase,
      Folder.find?_append hg]
    simp
  · rw [if_neg hp, if_neg]
    exact fun hpn => hp ((List.prefix_append p [name]).trans hpn)

/-- What is changed in a folder is found in its place. -/
theorem replaces_change {f : Folder} (h : d.root.at? p = some f) (work : Folder → Folder) :
    Replaces p (some (.folder (work f))) d (d.change p work) := by
  refine ⟨rfl, ?_⟩
  intro q
  rw [find?, change, Folder.find?_modify h]
  rfl

theorem replaces_nil (h : d.find? p = some .folder) :
    Replaces p (some (.folder .nil)) d (d.change p fun _ => .nil) := by
  obtain ⟨g, hg⟩ := Folder.find?_eq_folder_iff.1 h
  exact replaces_change hg fun _ => .nil

end Disk

end GuidedLab
