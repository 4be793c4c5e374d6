import Mathlib.Data.List.Perm.Basic
import GuidedLab.Proofs.Disk.Tidy
import GuidedLab.Proofs.Run.Folders

/-!
# Runs that work on another run spares

Work on one run may touch what is under the name of the run in the folder of all runs, and leave files
beside it there. All other runs are *spared* by such work: they are still there, with all their files
(`Disk.Spares`). On a tidy disk the list of the runs is told by which of them are there (`Run.exists_list`),
so what spares all runs but one changes the list by that one run at most.
-/

namespace GuidedLab

namespace Disk

variable {d e d' : Disk} {p q r : List String} {path : Path} {name other : String}

/-- The second disk is the first one, but for what is under a name in the folder at a position and for what
is no folder under the other names there. -/
structure Spares (p : List String) (name : String) (d d' : Disk) : Prop where
  working : d'.working = d.working
  find?_or : ∀ q, ¬ p ++ [name] <+: q → d'.find? q = d.find? q ∨
    (∃ other, q = p ++ [other]) ∧ d.find? q ≠ some .folder ∧ d'.find? q ≠ some .folder

theorem Spares.refl (p : List String) (name : String) (d : Disk) : Spares p name d d :=
  ⟨rfl, fun _ _ => Or.inl rfl⟩

theorem Spares.trans (h : Spares p name d e) (h' : Spares p name e d') : Spares p name d d' := by
  refine ⟨h'.working.trans h.working, fun q hq => ?_⟩
  rcases h.find?_or q hq with heq | ⟨hother, hd, he⟩
  · rw [← heq]
    exact h'.find?_or q hq
  · rcases h'.find?_or q hq with heq' | ⟨-, -, hd'⟩
    · exact Or.inr ⟨hother, hd, heq' ▸ he⟩
    · exact Or.inr ⟨hother, hd, hd'⟩

theorem Replaces.spares {v : Option Folder.Entry} (h : Replaces (p ++ [name]) v d d') :
    Spares p name d d' :=
  ⟨h.working, fun _ hq => Or.inl (h.find?_of_not_prefix hq)⟩

theorem ChangesBelow.spares (h : ChangesBelow (p ++ [name]) d d') : Spares p name d d' :=
  ⟨h.working, fun q hq => Or.inl (h.find?_eq q fun hbelow => hq hbelow.1)⟩

/-- A file that is written where there is no folder spares all runs. -/
theorem Replaces.spares_of_file {content : ByteArray}
    (h : Replaces (p ++ [other]) (some (.file content)) d d')
    (free : d.find? (p ++ [other]) ≠ some .folder) (name : String) : Spares p name d d' := by
  have hfile : d'.find? (p ++ [other]) = some (.file content) := by
    rw [h.find?_self]
    rfl
  refine ⟨h.working, fun q _ => ?_⟩
  by_cases hq : q = p ++ [other]
  · subst hq
    exact Or.inr ⟨⟨other, rfl⟩, free, by rw [hfile]; nofun⟩
  · exact Or.inl (h.find?_of_ne (fun _ hrest => if_neg hrest) free hq)

/-- A path to a folder does not pass what is no folder, nor what would be below it. -/
theorem not_prefix_of_passes (hplace : d.place path = .ok (.folder q))
    (free : d.find? r ≠ some .folder) {s : List String} (hs : path.Passes d.working s) : ¬ r <+: s :=
  not_prefix_of_folder free (find?_of_passes hplace hs)

/-- What is put where there was no folder is on no way to a folder. -/
theorem Replaces.place_eq {v : Option Folder.Entry} (h : Replaces r v d d')
    (free : d.find? r ≠ some .folder) (hplace : d.place path = .ok (.folder q)) :
    d'.place path = d.place path :=
  place_congr h.working fun _ hs => h.find?_of_not_prefix (not_prefix_of_passes hplace free hs)

/-- What spares runs leaves the way to their folder, if there was no folder of the one name. -/
theorem Spares.place_eq (h : Spares p name d d') (free : d.find? (p ++ [name]) ≠ some .folder)
    (hplace : d.place path = .ok (.folder q)) : d'.place path = d.place path := by
  refine place_congr h.working fun s hs => ?_
  rcases h.find?_or s (not_prefix_of_passes hplace free hs) with heq | ⟨-, hd, -⟩
  · exact heq
  · exact absurd (find?_of_passes hplace hs) hd

theorem not_prefix_of_ne (ne : other ≠ name) (hq : p ++ [other] <+: q) : ¬ p ++ [name] <+: q := by
  intro hname
  rcases List.prefix_or_prefix_of_prefix hname hq with h | h
  · exact ne (concat_prefix_iff.1 h).symm
  · exact ne (concat_prefix_iff.1 h)

/-- Which folders there are under other names stays. -/
theorem Spares.find?_eq_folder_iff (h : Spares p name d d') (ne : other ≠ name) :
    d'.find? (p ++ [other]) = some .folder ↔ d.find? (p ++ [other]) = some .folder := by
  rcases h.find?_or _ (not_prefix_of_ne ne List.prefix_rfl) with heq | ⟨-, hd, hd'⟩
  · rw [heq]
  · exact ⟨fun hf => absurd hf hd', fun hf => absurd hf hd⟩

/-- What is in a folder under another name stays. -/
theorem Spares.find?_eq (h : Spares p name d d') (ne : other ≠ name)
    (folder : d.find? (p ++ [other]) = some .folder) (hq : p ++ [other] <+: q) :
    d'.find? q = d.find? q := by
  rcases h.find?_or q (not_prefix_of_ne ne hq) with heq | ⟨⟨last, rfl⟩, hd, -⟩
  · exact heq
  · rw [concat_prefix_iff.1 hq] at folder
    exact absurd folder hd

end Disk

namespace Run

variable {d e : Disk} {runs : Path} {p p' : List String} {name : String}

/-- There is no run where the path of all runs leads to no file and nothing is found below. -/
theorem run_list_of_empty (tidy : d.IsTidy)
    (noFile : ∀ content, d.find? (runs.positionFrom d.working) ≠ some (.file content))
    (empty : ∀ name, d.find? (runs.positionFrom d.working ++ [name]) = none) :
    (list runs).run d = (.ok [], d) := by
  cases hthere : d.isThere runs with
  | false => exact run_list_of_missing hthere
  | true =>
      rw [Disk.isThere] at hthere
      split at hthere
      · next p hplace =>
          obtain ⟨names, hlist, -, -, hmem⟩ := exists_list hplace (tidy.orderedAt_of_place hplace)
          have hnames : names = [] := by
            refine List.eq_nil_iff_forall_not_mem.2 fun name hname => ?_
            have hfound := (hmem name).1 hname
            rw [show p = runs.positionFrom d.working from (Disk.place_eq_ok hplace).1, empty] at hfound
            cases hfound
          rw [hlist, hnames]
          rfl
      · next above name content hplace =>
          obtain ⟨hposition, hfound, -⟩ := Disk.place_eq_ok hplace
          rw [hposition] at hfound
          exact absurd hfound (noFile content)
      · cases hthere

/-- The list of the runs tells no more than which folders there are. -/
theorem list_eq_of_folders (tidy : d.IsTidy) (tidy' : e.IsTidy)
    (hplace : d.place runs = .ok (.folder p)) (hplace' : e.place runs = .ok (.folder p'))
    (same : ∀ name, e.find? (p' ++ [name]) = some .folder ↔ d.find? (p ++ [name]) = some .folder) :
    ((list runs).run e).1 = ((list runs).run d).1 := by
  obtain ⟨names, hlist, hnodup, hsorted, hmem⟩ := exists_list hplace (tidy.orderedAt_of_place hplace)
  obtain ⟨names', hlist', hnodup', hsorted', hmem'⟩ := exists_list hplace' (tidy'.orderedAt_of_place hplace')
  have hperm : names'.Perm names :=
    (List.perm_ext_iff_of_nodup hnodup' hnodup).2 fun name => by rw [hmem', hmem, same]
  have hnames : names' = names := hperm.eq_of_pairwise
    (fun a b _ _ hba hab => Std.le_antisymm hab hba) hsorted' hsorted
  rw [hlist, hlist', hnames]

/-- Where one folder is neither before nor after, what spares the others leaves the list of the runs. -/
theorem list_eq_of_spares (h : Disk.Spares p name d e) (tidy : d.IsTidy) (tidy' : e.IsTidy)
    (hplace : d.place runs = .ok (.folder p)) (free : d.find? (p ++ [name]) ≠ some .folder)
    (gone : e.find? (p ++ [name]) ≠ some .folder) :
    ((list runs).run e).1 = ((list runs).run d).1 := by
  refine list_eq_of_folders tidy tidy' hplace ((h.place_eq free hplace).trans hplace) fun other => ?_
  by_cases ne : other = name
  · rw [ne]
    exact iff_of_false gone free
  · exact h.find?_eq_folder_iff ne

/-- Where one folder is new, what spares the others adds its name to the list of the runs. -/
theorem perm_list_of_spares (h : Disk.Spares p name d e) (tidy : d.IsTidy) (tidy' : e.IsTidy)
    (hplace : d.place runs = .ok (.folder p)) (free : d.find? (p ++ [name]) ≠ some .folder)
    (new : e.find? (p ++ [name]) = some .folder) :
    ∃ before after, ((list runs).run d).1 = .ok before ∧ ((list runs).run e).1 = .ok after ∧
      name ∉ before.map Entry.name ∧ (after.map Entry.name).Perm (name :: before.map Entry.name) := by
  obtain ⟨names, hlist, hnodup, -, hmem⟩ := exists_list hplace (tidy.orderedAt_of_place hplace)
  have hplace' := (h.place_eq free hplace).trans hplace
  obtain ⟨names', hlist', hnodup', -, hmem'⟩ :=
    exists_list hplace' (tidy'.orderedAt_of_place hplace')
  have hfresh : name ∉ names := fun hname => free ((hmem name).1 hname)
  refine ⟨_, _, by rw [hlist], by rw [hlist'], ?_, ?_⟩
  · rwa [map_name_map_ofName]
  · rw [map_name_map_ofName, map_name_map_ofName,
      List.perm_ext_iff_of_nodup hnodup' (List.nodup_cons.2 ⟨hfresh, hnodup⟩)]
    intro other
    rw [hmem', List.mem_cons, hmem]
    by_cases ne : other = name
    · rw [ne]
      exact iff_of_true new (Or.inl rfl)
    · rw [h.find?_eq_folder_iff ne, or_iff_right ne]

end Run

end GuidedLab
