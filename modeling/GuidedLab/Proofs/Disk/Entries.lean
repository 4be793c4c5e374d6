import GuidedLab.Proofs.Disk.Place

/-!
# What a folder lists

The entries of a folder are kept in the order of their names, so each name is there once
(`Folder.Ordered`): putting and erasing an entry keep them so. What is listed of such a folder is then
what is found in it (`Disk.exists_foldersIn`).
-/

namespace GuidedLab

namespace Folder

variable {f g : Folder} {name other : String} {e : Entry}

/-- The names of the entries. -/
def names (f : Folder) : List String := f.entries.map Prod.fst

/-- The entries are in the order of their names, and no two have one name. -/
def Ordered (f : Folder) : Prop := f.names.Pairwise (· < ·)

instance (f : Folder) : Decidable f.Ordered := inferInstanceAs (Decidable (f.names.Pairwise (· < ·)))

/-- The names of the folders among the entries. -/
def folderNames (f : Folder) : List String :=
  f.entries.filterMap fun
    | (name, .folder _) => some name
    | _ => none

theorem names_cons (name : String) (e : Entry) (f : Folder) :
    (cons name e f).names = name :: f.names := by
  cases e <;> rfl

theorem Ordered.nodup (h : f.Ordered) : f.names.Nodup := by
  refine h.imp ?_
  rintro a b hab rfl
  exact Std.lt_irrefl hab

theorem ordered_nil : nil.Ordered := List.Pairwise.nil

theorem ordered_cons : (cons name e f).Ordered ↔ (∀ n ∈ f.names, name < n) ∧ f.Ordered := by
  rw [Ordered, names_cons, List.pairwise_cons]
  exact Iff.rfl

theorem mem_names_put (h : other ∈ (f.put name e).names) : other = name ∨ other ∈ f.names := by
  induction f with
  | nil =>
      rw [put, names_cons] at h
      exact List.mem_cons.1 h
  | file n content rest ih | folder n inner rest _ ih =>
      rw [put] at h
      split at h
      · rw [names_cons] at h
        exact List.mem_cons.1 h
      · split at h
        · rw [names_cons] at h
          exact (List.mem_cons.1 h).imp_right (List.mem_cons_of_mem _)
        · rcases List.mem_cons.1 h with rfl | h
          · exact Or.inr List.mem_cons_self
          · exact (ih h).imp_right (List.mem_cons_of_mem _)

theorem ordered_put (h : f.Ordered) (name : String) (e : Entry) : (f.put name e).Ordered := by
  induction f with
  | nil => exact ordered_cons.2 ⟨nofun, ordered_nil⟩
  | file n content rest ih | folder n inner rest _ ih =>
      obtain ⟨hn, hrest⟩ := List.pairwise_cons.1 (h : List.Pairwise _ (n :: rest.names))
      rw [put]
      split
      · next hlt =>
          refine ordered_cons.2 ⟨?_, h⟩
          intro m hm
          rcases List.mem_cons.1 hm with rfl | hm
          · exact hlt
          · exact Std.lt_trans hlt (hn m hm)
      · next hlt =>
          split
          · next heq => exact ordered_cons.2 ⟨heq ▸ hn, hrest⟩
          · next hne =>
              refine List.pairwise_cons.2 ⟨?_, ih hrest⟩
              intro m hm
              rcases mem_names_put hm with rfl | hm
              · exact Std.lt_of_le_of_ne (Std.not_lt.1 hlt) (Ne.symm hne)
              · exact hn m hm

theorem names_erase_sublist (name : String) (f : Folder) : (f.erase name).names.Sublist f.names := by
  induction f with
  | nil => exact List.Sublist.refl _
  | file n content rest ih | folder n inner rest _ ih =>
      rw [erase]
      split
      · exact ih.cons n
      · exact ih.cons_cons n

theorem ordered_erase (h : f.Ordered) (name : String) : (f.erase name).Ordered :=
  List.Pairwise.sublist (names_erase_sublist name f) h

/-- What is under a name is among the entries, and there is nothing else of that name. -/
theorem get?_eq_some_iff (h : f.names.Nodup) : f.get? name = some e ↔ (name, e) ∈ f.entries := by
  induction f with
  | nil => exact ⟨nofun, nofun⟩
  | file n content rest ih | folder n inner rest _ ih =>
      obtain ⟨hn, hrest⟩ := List.nodup_cons.1 (h : List.Nodup (n :: rest.names))
      rw [get?, entries, List.mem_cons, Prod.mk.injEq]
      split
      · next heq =>
          subst heq
          constructor
          · rintro ⟨⟩
            exact Or.inl ⟨rfl, rfl⟩
          · rintro (⟨-, rfl⟩ | hmem)
            · rfl
            · exact absurd (List.mem_map_of_mem (f := Prod.fst) hmem) hn
      · next hne =>
          rw [ih hrest]
          constructor
          · exact Or.inr
          · rintro (⟨rfl, -⟩ | hmem)
            · exact absurd rfl hne
            · exact hmem

theorem mem_names_of_find? (h : f.Ordered) (found : f.find? [name] ≠ none) : name ∈ f.names := by
  rw [find?_cons] at found
  cases hget : f.get? name with
  | none =>
      rw [hget] at found
      exact absurd rfl found
  | some e => exact List.mem_map_of_mem (f := Prod.fst) ((get?_eq_some_iff h.nodup).1 hget)

theorem folderNames_sublist (f : Folder) : f.folderNames.Sublist f.names := by
  induction f with
  | nil => exact List.Sublist.refl _
  | file n content rest ih => exact ih.cons n
  | folder n inner rest _ ih => exact ih.cons_cons n

theorem mem_folderNames_iff (h : f.names.Nodup) :
    name ∈ f.folderNames ↔ f.find? [name] = some .folder := by
  rw [folderNames, List.mem_filterMap, find?_cons]
  constructor
  · rintro ⟨⟨n, entry⟩, hmem, hn⟩
    cases entry with
    | file content => cases hn
    | folder inner =>
        cases hn
        rw [(get?_eq_some_iff h).2 hmem]
        rfl
  · intro hfound
    obtain ⟨entry, hget, hfolder⟩ := Option.bind_eq_some_iff.1 hfound
    refine ⟨(name, entry), (get?_eq_some_iff h).1 hget, ?_⟩
    cases entry with
    | file content => cases hfolder
    | folder inner => rfl

/-- The folder at a position after a change at or below it. -/
theorem at?_modify_append {change : Folder → Folder} {p : List String} (h : f.at? p = some g)
    (q : List String) : (f.modify change (p ++ q)).at? p = some (g.modify change q) := by
  induction p generalizing f with
  | nil =>
      cases h
      rfl
  | cons n p ih =>
      rw [at?_cons] at h
      obtain ⟨inner, hi, h⟩ := Option.bind_eq_some_iff.1 h
      rw [List.cons_append, modify, hi]
      simp only [at?_cons, folder?, get?_put_self, Option.bind_some]
      exact ih h

/-- A change in a folder among the entries leaves them in order. -/
theorem ordered_modify (h : f.Ordered) (change : Folder → Folder) (name : String) :
    (f.modify change [name]).Ordered := by
  rw [modify]
  split
  · exact ordered_put h name _
  · exact h

/-- A folder in which nothing is found is empty. -/
theorem eq_nil_of_find? (h : ∀ name, f.find? [name] = none) : f = nil := by
  cases f with
  | nil => rfl
  | file n content rest =>
      have hn := h n
      rw [find?_cons, get?, if_pos rfl] at hn
      cases hn
  | folder n inner rest =>
      have hn := h n
      rw [find?_cons, get?, if_pos rfl] at hn
      cases hn

end Folder

namespace Disk

variable {d : Disk} {path : Path} {p : List String}

/-- The folder at a position lists its entries in order. -/
def OrderedAt (d : Disk) (p : List String) : Prop := ∃ f, d.root.at? p = some f ∧ f.Ordered

theorem isFolder_of_foldersIn {names : List String} (h : d.foldersIn path = .ok names) :
    d.isFolder path = true := by
  rw [foldersIn] at h
  split at h
  · next hplace => rw [isFolder, hplace]
  · cases h
  · cases h
  · cases h

/-- What is listed of a folder are the folders found in it, each once. -/
theorem exists_foldersIn (h : d.place path = .ok (.folder p)) (ordered : d.OrderedAt p) :
    ∃ names, d.foldersIn path = .ok names ∧ names.Nodup ∧
      ∀ name, name ∈ names ↔ d.find? (p ++ [name]) = some .folder := by
  obtain ⟨f, hf, hordered⟩ := ordered
  refine ⟨f.folderNames, ?_, hordered.nodup.sublist f.folderNames_sublist, ?_⟩
  · rw [foldersIn, h]
    dsimp only
    rw [hf]
    rfl
  · intro name
    rw [Folder.mem_folderNames_iff hordered.nodup, find?, Folder.find?_append hf]

theorem OrderedAt.change (h : d.OrderedAt p) {work : Folder → Folder}
    (keeps : ∀ f, f.Ordered → (work f).Ordered) : (d.change p work).OrderedAt p := by
  obtain ⟨f, hf, hordered⟩ := h
  exact ⟨work f, Folder.at?_modify_self hf, keeps f hordered⟩

theorem OrderedAt.change_below (h : d.OrderedAt p) (name : String) (work : Folder → Folder) :
    (d.change (p ++ [name]) work).OrderedAt p := by
  obtain ⟨f, hf, hordered⟩ := h
  exact ⟨_, Folder.at?_modify_append hf [name], Folder.ordered_modify hordered work name⟩

end Disk

end GuidedLab
