import GuidedLab.Run.Folders
import GuidedLab.Proofs.Disk.Entries
import GuidedLab.Proofs.Disk.Opens
import GuidedLab.Proofs.Text.Bytes

/-!
# The folder of all runs as a set of names

Runs are created and deleted by name, and work is done in their folders. A `Ledger` is a disk together
with the names that were created on it and not deleted since. At any moment of a history that starts
without the folder of all runs, the folder is still missing and there is no name, or it is open and
holds a folder for each name and nothing else (`Ledger.Accords`). Each kind of call keeps it so
(`Ledger.Accords.perform`), and what a call answers can be told from the names (`Ledger.Accords.isSet`).
So the folder of all runs behaves as a set of names all along (`Ledger.runs_are_set`).

The folder of all runs has to be empty when it is made. It is if its path leads down
(`unused_of_leadsDown`). If its path leads up again from a folder that is made on the way, that folder
is then listed as a run (`Ledger.not_runs_are_set`).
-/

namespace GuidedLab

open Disk (Opens Holds Grows Replaces ChangesBelow)

namespace Run

variable {d e : Disk} {runs : Path} {name other : String} {names : List String}

/-! ### Names -/

/-- A text that names no run. -/
def Misnamed (name : String) : Prop :=
  name = "" ∨ name = "." ∨ name = ".." ∨ '/' ∈ name.toList ∨ '\\' ∈ name.toList

theorem isName_eq_false_iff : isName name = false ↔ Misnamed name := by
  rw [← Bool.not_eq_true, isName, Misnamed]
  simp only [Bool.and_eq_true, decide_eq_true_eq, Bool.not_eq_true', List.contains_eq_mem,
    decide_eq_false_iff_not]
  grind

theorem not_misnamed_of_isName (h : isName name = true) : ¬ Misnamed name := by
  intro hmis
  rw [isName_eq_false_iff.2 hmis] at h
  cases h

theorem isPlain_of_isName (h : isName name = true) : Path.IsPlain name := by
  simp only [isName, Bool.and_eq_true, decide_eq_true_eq, Bool.not_eq_true', List.contains_eq_mem,
    decide_eq_false_iff_not] at h
  obtain ⟨⟨⟨⟨hne, hdot⟩, hup⟩, hwhole⟩, -⟩ := h
  exact ⟨⟨by simp [Path.isIdle, hne, hdot], hwhole⟩, hup⟩

theorem isName_iff : isName name = true ↔ Path.IsPlain name ∧ '\\' ∉ name.toList := by
  constructor
  · intro h
    have proper := not_misnamed_of_isName h
    exact ⟨isPlain_of_isName h, fun hmem => proper (by simp [Misnamed, hmem])⟩
  · rintro ⟨plain, hmem⟩
    rw [← Bool.not_eq_false, isName_eq_false_iff, Misnamed]
    rintro (rfl | rfl | rfl | hslash | hback)
    · exact absurd plain.meant (by decide)
    · exact absurd plain.meant (by decide)
    · exact plain.down rfl
    · exact plain.whole hslash
    · exact hmem hback

@[simp] theorem name_ofName (name : String) : (Entry.ofName name).name = name := by
  rw [Entry.ofName]
  split <;> rfl

@[simp] theorem map_name_map_ofName (names : List String) :
    (names.map Entry.ofName).map Entry.name = names := by
  rw [List.map_map]
  exact (List.map_congr_left fun n _ => name_ofName n).trans (List.map_id _)

/-- Names are sorted in descending order. -/
theorem pairwise_mergeSort_names (names : List String) :
    (names.mergeSort fun a b => decide (b ≤ a)).Pairwise fun a b => b ≤ a := by
  refine (List.pairwise_mergeSort ?_ ?_ names).imp fun {a b} h => of_decide_eq_true h
  · intro a b c hab hbc
    exact decide_eq_true (Std.le_trans (of_decide_eq_true hbc) (of_decide_eq_true hab))
  · intro a b
    rw [Bool.or_eq_true, decide_eq_true_eq, decide_eq_true_eq]
    exact Std.le_total

/-- The runs are the folders in the folder of all runs, sorted. -/
theorem run_list_of_foldersIn (there : d.isThere runs = true) (listed : d.foldersIn runs = .ok names) :
    (list runs).run d =
      (.ok ((names.mergeSort fun a b => decide (b ≤ a)).map Entry.ofName), d) := by
  rw [list, Job.run_bind, Job.run_ask, there]
  dsimp only
  rw [if_pos rfl, Job.run_bind, Job.run_query, listed]
  rfl

/-- The runs that are listed are the folders in the folder of all runs, each once, the latest names
first. -/
theorem exists_list {p : List String} (hplace : d.place runs = .ok (.folder p))
    (ordered : d.OrderedAt p) :
    ∃ names : List String, (list runs).run d = (.ok (names.map Entry.ofName), d) ∧ names.Nodup ∧
      (names.Pairwise fun a b => b ≤ a) ∧
      ∀ name, name ∈ names ↔ d.find? (p ++ [name]) = some .folder := by
  obtain ⟨listed, hlisted, hnodup, hmem⟩ := Disk.exists_foldersIn hplace ordered
  refine ⟨_, run_list_of_foldersIn (by rw [Disk.isThere, hplace]) hlisted, ?_,
    pairwise_mergeSort_names listed, fun name => ?_⟩
  · exact (List.mergeSort_perm listed _).nodup_iff.2 hnodup
  · rw [List.mem_mergeSort, hmem]

theorem run_list_of_missing (missing : d.isThere runs = false) : (list runs).run d = (.ok [], d) := by
  rw [list, Job.run_bind, Job.run_ask, missing]
  rfl

/-- There are runs only where there is a folder of all runs. -/
theorem isFolder_of_list {entries : List Entry} (h : (list runs).run d = (.ok entries, d))
    (ne : entries ≠ []) : d.isFolder runs = true := by
  rw [list] at h
  obtain ⟨there, _, hthere, h⟩ := Job.run_bind_eq_ok_iff.1 h
  obtain ⟨rfl, rfl⟩ := Job.run_ask_eq_ok_iff.1 hthere
  split at h
  · obtain ⟨names, _, hnames, -⟩ := Job.run_bind_eq_ok_iff.1 h
    exact Disk.isFolder_of_foldersIn (Job.run_query_eq_ok_iff.1 hnames).1
  · cases h
    exact absurd rfl ne

/-! ### The folder of all runs -/

/-- The folder of all runs is missing, and it is there and empty once it is made. -/
structure Unused (runs : Path) (d : Disk) : Prop where
  missing : d.isThere runs = false
  made : ∃ e, d.makeAll runs = (e, .ok ()) ∧ e.isFolder runs = true ∧
    ∀ name, e.find? (runs.positionFrom d.working ++ [name]) = none

/-- The folder of all runs is open and holds a folder for each of some names and nothing else. -/
structure HoldsRuns (runs : Path) (names : List String) (d : Disk) : Prop where
  opens : d.Opens runs
  ordered : d.OrderedAt (runs.positionFrom d.working)
  found : ∀ name, d.find? (runs.positionFrom d.working ++ [name]) =
    if name ∈ names then some .folder else none
  held : ∀ name ∈ names, isName name = true ∧ Holds runs name

/-- A folder that is missing is there and empty once it was made, if its path leads down. -/
theorem unused_of_leadsDown (missing : d.isThere runs = false) (above : runs.parent? ≠ none)
    (leads : d.LeadsDown runs) (made : d.makeAll runs = (e, .ok ())) : Unused runs d := by
  have hmakes := Disk.makes_makeAll d runs
  rw [made] at hmakes
  obtain ⟨p, hplace⟩ := Disk.exists_place_of_makeAll made above
  refine ⟨missing, e, made, by rw [Disk.isFolder, hplace], ?_⟩
  by_cases hsame : ∀ q, runs.Passes d.working q → e.find? q = d.find? q
  · -- the path would have led to the folder before
    rw [Disk.isThere, ← Disk.place_congr hmakes.working hsame, hplace] at missing
    cases missing
  · simp only [Classical.not_forall] at hsame
    obtain ⟨q, hq, hdiffer⟩ := hsame
    exact (leads.find?_below_of_makes hmakes hq hdiffer).2

/-- Where the folder of all runs is missing, nothing is found by the name of a run. -/
theorem Unused.isFolder_child (h : Unused runs d) (plain : Path.IsPlain name) :
    d.isFolder (runs.child name) = false := by
  cases hchild : d.isFolder (runs.child name) with
  | false => rfl
  | true =>
      obtain ⟨e, -, hfolder, -⟩ := h.made
      have hsound := Disk.isSound_of_place (Disk.place_of_isFolder hfolder)
      have hne : runs.text ≠ "" := by simpa using hsound.notEmpty
      obtain ⟨p, hp⟩ := Disk.exists_place_of_child plain hne (Disk.place_of_isFolder hchild)
      have hmissing := h.missing
      rw [Disk.isThere, hp] at hmissing
      cases hmissing

/-- The folder of all runs holds no run when it is made. -/
theorem Unused.exists_holdsRuns (h : Unused runs d) :
    ∃ e, d.makeAll runs = (e, .ok ()) ∧ HoldsRuns runs [] e ∧ Grows d e := by
  obtain ⟨e, hmake, hfolder, hempty⟩ := h.made
  have hmakes := Disk.makes_makeAll d runs
  rw [hmake] at hmakes
  have hplace := Disk.place_of_isFolder hfolder
  rw [← hmakes.working] at hempty
  have hdirect : runs.IsDirect e.working := by
    rintro q hq ⟨⟨rest, rfl⟩, hne⟩
    -- what the path passes is a folder, but nothing is found below where it leads
    cases rest with
    | nil => exact hne (List.append_nil _)
    | cons n rest =>
        have hpass := Disk.find?_of_passes hplace hq
        have habove : e.find? (runs.positionFrom e.working ++ [n]) ≠ none := by
          by_cases hrest : rest = []
          · rw [← hrest, hpass]
            exact Option.some_ne_none _
          · rw [Disk.find?_eq_folder_of_below (q := runs.positionFrom e.working ++ n :: rest)]
            · exact Option.some_ne_none _
            · rw [List.prefix_append_right_inj]
              exact List.cons_prefix_cons.2 ⟨rfl, List.nil_prefix⟩
            · simpa using hrest
            · rw [hpass]
              exact Option.some_ne_none _
        exact habove (hempty n)
  have hopens : e.Opens runs := ⟨hplace, hdirect⟩
  obtain ⟨g, hg⟩ := Folder.find?_eq_folder_iff.1 hopens.find?
  refine ⟨e, hmake, ⟨hopens, ⟨g, hg, ?_⟩, ?_, nofun⟩, hmakes.grows⟩
  · have hnil : g = .nil := Folder.eq_nil_of_find? fun n => by
      rw [← Folder.find?_append hg]
      exact hempty n
    rw [hnil]
    exact Folder.ordered_nil
  · intro n
    rw [hempty n, if_neg (List.not_mem_nil)]

theorem HoldsRuns.isFolder (h : HoldsRuns runs names d) : d.isFolder runs = true := by
  rw [Disk.isFolder, h.opens.place]

theorem HoldsRuns.placeIn (h : HoldsRuns runs names d) (name : String) :
    d.placeIn (runs.positionFrom d.working) name =
      if name ∈ names then .folder (runs.positionFrom d.working ++ [name])
      else .free (runs.positionFrom d.working) name false := by
  rw [Disk.placeIn, h.found]
  by_cases hn : name ∈ names
  · rw [if_pos hn, if_pos hn]
  · rw [if_neg hn, if_neg hn]

/-- Work below the folder of all runs that leaves folders for some names and nothing else. -/
theorem HoldsRuns.of_changesBelow {later : List String} (h : HoldsRuns runs names d)
    (hc : ChangesBelow (runs.positionFrom d.working) d e)
    (ordered : e.OrderedAt (runs.positionFrom d.working))
    (found : ∀ name, e.find? (runs.positionFrom d.working ++ [name]) =
      if name ∈ later then some .folder else none)
    (held : ∀ name ∈ later, isName name = true ∧ Holds runs name) : HoldsRuns runs later e := by
  have hopens := h.opens.of_changesBelow hc
  rw [← hc.working] at ordered found
  exact ⟨hopens, ordered, found, held⟩

theorem changesBelow_of_replaces {p : List String} {v : Option Folder.Entry}
    (h : Replaces (p ++ [name]) v d e) : ChangesBelow p d e :=
  h.changesBelow (List.prefix_append _ _) (Disk.append_ne_self (List.cons_ne_nil _ _) _)

/-- Putting something under a name, or taking it away, concerns no other name. -/
theorem HoldsRuns.found_of_replaces {later : List String} {v : Option Folder.Entry}
    (h : HoldsRuns runs names d) (hr : Replaces (runs.positionFrom d.working ++ [name]) v d e)
    (self : (v.bind fun e => e.find? []) = if name ∈ later then some .folder else none)
    (others : ∀ other, other ≠ name → (other ∈ later ↔ other ∈ names)) (other : String) :
    e.find? (runs.positionFrom d.working ++ [other]) =
      if other ∈ later then some .folder else none := by
  by_cases heq : other = name
  · rw [heq, hr.find?_self, self]
  · rw [hr.find?_of_not_prefix fun hp => heq (Disk.concat_prefix_iff.1 hp).symm, h.found]
    simp only [others other heq]

/-! ### Calls -/

theorem run_create_of_misnamed (h : isName name = false) (runs : Path) (d : Disk) :
    (create runs name).run d = (.error (.ofRule s!"invalid run name '{name}'"), d) := by
  rw [create, checkName, h]
  rfl

theorem run_delete_of_misnamed (h : isName name = false) (runs : Path) (d : Disk) :
    (delete runs name).run d = (.error (.ofRule s!"invalid run name '{name}'"), d) := by
  rw [delete, checkName, h]
  rfl

theorem run_create_of_present (valid : isName name = true) (hmake : d.makeAll runs = (e, .ok ()))
    (present : e.make (runs.child name) = .error .present) :
    (create runs name).run d =
      (.error (.ofRule s!"run directory {(runs.child name).text} already exists"), e) := by
  rw [create, checkName, if_pos valid, pure_bind, Job.run_bind, Job.run_changeInPart, hmake]
  dsimp only [ofDisk, during]
  rw [Job.run_bind, Job.run_ask, present]
  rfl

theorem run_create_of_made {e' : Disk} (valid : isName name = true)
    (hmake : d.makeAll runs = (e, .ok ())) (made : e.make (runs.child name) = .ok e') :
    (create runs name).run d = (.ok (runs.child name), e') := by
  rw [create, checkName, if_pos valid, pure_bind, Job.run_bind, Job.run_changeInPart, hmake]
  dsimp only [ofDisk, during]
  rw [Job.run_bind, Job.run_ask, made]
  dsimp only
  rw [Job.run_bind, Job.run_change, made]
  rfl

theorem run_create_of_unmade {r : Refusal} (valid : isName name = true)
    (hmake : d.makeAll runs = (e, .error r)) : ∃ f, (create runs name).run d = (.error f, e) := by
  rw [create, checkName, if_pos valid, pure_bind, Job.run_bind, Job.run_changeInPart, hmake]
  exact ⟨_, rfl⟩

theorem run_create_of_refused {r : Refusal} (valid : isName name = true)
    (hmake : d.makeAll runs = (e, .ok ())) (refused : e.make (runs.child name) = .error r) :
    ∃ f, (create runs name).run d = (.error f, e) := by
  by_cases hr : r = .present
  · subst hr
    exact ⟨_, run_create_of_present valid hmake refused⟩
  · rw [create, checkName, if_pos valid, pure_bind, Job.run_bind, Job.run_changeInPart, hmake]
    dsimp only [ofDisk, during]
    rw [Job.run_bind, Job.run_ask, refused]
    dsimp only
    split
    · next heq => exact absurd (Except.error.inj heq) hr
    · rw [Job.run_bind, Job.run_change, refused]
      exact ⟨_, rfl⟩

/-- A creation fails and has made no more than the folder of all runs, or it makes a new folder there. -/
theorem create_cases (runs : Path) (name : String) (d : Disk) :
    (∃ f, (create runs name).run d = (.error f, d) ∨
      (create runs name).run d = (.error f, (d.makeAll runs).1)) ∨
    ∃ e, isName name = true ∧ (d.makeAll runs).1.make (runs.child name) = .ok e ∧
      (create runs name).run d = (.ok (runs.child name), e) := by
  cases valid : isName name with
  | false => exact Or.inl ⟨_, Or.inl (run_create_of_misnamed valid runs d)⟩
  | true =>
      rcases hall : d.makeAll runs with ⟨made, r | _⟩
      · obtain ⟨f, hf⟩ := run_create_of_unmade valid hall
        exact Or.inl ⟨f, Or.inr hf⟩
      · cases hmake : made.make (runs.child name) with
        | ok e => exact Or.inr ⟨e, rfl, rfl, run_create_of_made valid hall hmake⟩
        | error r =>
            obtain ⟨f, hf⟩ := run_create_of_refused valid hall hmake
            exact Or.inl ⟨f, Or.inr hf⟩

theorem run_delete_of_not_isFolder (valid : isName name = true)
    (missing : d.isFolder (runs.child name) = false) :
    (delete runs name).run d = (.error (.ofRule s!"no run named {name} in {runs.text}"), d) := by
  rw [delete, checkName, if_pos valid, pure_bind, Job.run_bind, Job.run_ask, missing]
  rfl

theorem run_delete_of_isFolder (valid : isName name = true)
    (there : d.isFolder (runs.child name) = true)
    (removed : d.removeAll (runs.child name) = (e, .ok ())) :
    (delete runs name).run d = (.ok (), e) := by
  rw [delete, checkName, if_pos valid, pure_bind, Job.run_bind, Job.run_ask, there]
  dsimp only
  rw [if_pos rfl, Job.run_changeInPart, removed]
  rfl

/-- A name that is not there yet is created as an empty folder, and nothing else is changed. -/
theorem HoldsRuns.exists_create (h : HoldsRuns runs names d) (valid : isName name = true)
    (holds : Holds runs name) (new : name ∉ names) :
    ∃ e, d.make (runs.child name) = .ok e ∧ HoldsRuns runs (name :: names) e ∧ Grows d e := by
  have hplace := h.opens.place_child holds
  rw [h.placeIn, if_neg new] at hplace
  have hmake : d.make (runs.child name) =
      .ok (d.change (runs.positionFrom d.working) (Folder.put name (.folder .nil))) := by
    rw [Disk.make, hplace]
  have hr := Disk.replaces_put h.opens.find? name (.folder .nil)
  refine ⟨_, hmake, h.of_changesBelow (changesBelow_of_replaces hr)
    (h.ordered.change fun f hf => Folder.ordered_put hf name _) ?_ ?_,
    Disk.grows_of_make hmake⟩
  · refine h.found_of_replaces hr ?_ fun other hne => ?_
    · rw [if_pos List.mem_cons_self]
      rfl
    · rw [List.mem_cons]
      exact or_iff_right hne
  · intro other hother
    rcases List.mem_cons.1 hother with rfl | hother
    · exact ⟨valid, holds⟩
    · exact h.held other hother

/-- A name that is there cannot be created. -/
theorem HoldsRuns.make_eq_present (h : HoldsRuns runs names d) (old : name ∈ names) :
    d.make (runs.child name) = .error .present := by
  have hplace := h.opens.place_child (h.held name old).2
  rw [h.placeIn, if_pos old] at hplace
  rw [Disk.make, hplace]

/-- A folder is found by the names that are there only. -/
theorem HoldsRuns.isFolder_child_iff (h : HoldsRuns runs names d) (plain : Path.IsPlain name) :
    d.isFolder (runs.child name) = true ↔ name ∈ names := by
  constructor
  · intro hfolder
    have hplace := Disk.place_of_isFolder hfolder
    rw [h.opens.place_child (Disk.holds_of_place plain hplace), h.placeIn] at hplace
    split at hplace
    · next hmem => exact hmem
    · cases hplace
  · intro hmem
    rw [Disk.isFolder, h.opens.place_child (h.held name hmem).2, h.placeIn, if_pos hmem]

/-- A name that is there is deleted with what is in its folder, and nothing else is changed. -/
theorem HoldsRuns.exists_delete (h : HoldsRuns runs names d) (old : name ∈ names) :
    ∃ e, d.removeAll (runs.child name) = (e, .ok ()) ∧
      HoldsRuns runs (names.filter (· ≠ name)) e ∧
      Replaces (runs.positionFrom d.working ++ [name]) none d e := by
  obtain ⟨valid, holds⟩ := h.held name old
  have hplace := h.opens.place_child holds
  rw [h.placeIn, if_pos old] at hplace
  have hends := Disk.endsInName_of_isPlain holds.plain runs
  have hremove : d.removeAll (runs.child name) =
      (d.change (runs.positionFrom d.working) (Folder.erase name), .ok ()) := by
    rw [Disk.removeAll, hplace]
    dsimp only
    rw [hends, if_pos (by simp), List.dropLast_concat, List.getLast?_concat, Option.getD_some]
  have hr := Disk.replaces_erase h.opens.find? name
  refine ⟨_, hremove, h.of_changesBelow (changesBelow_of_replaces hr)
    (h.ordered.change fun f hf => Folder.ordered_erase hf name) ?_ ?_, hr⟩
  · refine h.found_of_replaces hr ?_ fun other hne => ?_
    · rw [if_neg (by simp)]
      rfl
    · simp [hne]
  · intro other hother
    exact h.held other (List.mem_filter.1 hother).1

/-- What is done in the folder of a run concerns no name. -/
theorem HoldsRuns.work (h : HoldsRuns runs names d) (old : name ∈ names) (change : Folder → Folder) :
    HoldsRuns runs names (d.change (runs.positionFrom d.working ++ [name]) change) := by
  have hfound : d.find? (runs.positionFrom d.working ++ [name]) = some .folder := by
    rw [h.found, if_pos old]
  obtain ⟨g, hg⟩ := Folder.find?_eq_folder_iff.1 hfound
  have hr := Disk.replaces_change hg change
  refine h.of_changesBelow (changesBelow_of_replaces hr) (h.ordered.change_below name change) ?_ h.held
  refine h.found_of_replaces hr ?_ fun other _ => Iff.rfl
  rw [if_pos old]
  rfl

/-- The runs that are listed are the names that are there, each once, in descending order. -/
theorem HoldsRuns.exists_list (h : HoldsRuns runs names d) :
    ∃ entries, (list runs).run d = (.ok entries, d) ∧
      (∀ name, name ∈ entries.map Entry.name ↔ name ∈ names) ∧
      (entries.map Entry.name).Pairwise fun a b => Text.bytes b < Text.bytes a := by
  obtain ⟨listed, hlist, hnodup, hsorted, hmem⟩ := Run.exists_list h.opens.place h.ordered
  refine ⟨_, hlist, ?_, ?_⟩
  · intro name
    rw [map_name_map_ofName, hmem, h.found]
    split <;> simp [*]
  · rw [map_name_map_ofName]
    refine (hsorted.and hnodup).imp fun {a b} hab => ?_
    exact Text.bytes_lt (Std.lt_of_le_of_ne hab.1 (Ne.symm hab.2))

/-- A folder of all runs that is missing has no runs. -/
theorem Unused.run_list (h : Unused runs d) : (list runs).run d = (.ok [], d) :=
  run_list_of_missing h.missing

/-! ### Histories -/

/-- What is done with runs: they are created and deleted, and something is done in their folders. -/
inductive Call where
  | create (name : String)
  | delete (name : String)
  | work (name : String) (change : Folder → Folder)

/-- A disk and the names that were created on it and not deleted since. -/
structure Ledger where
  disk : Disk
  names : List String

namespace Ledger

/-- The ledger after a call. A name is created or deleted if the call succeeds, and only in the folder
of a run that is there is anything done. -/
def perform (runs : Path) (l : Ledger) : Call → Ledger
  | .create name =>
    match (create runs name).run l.disk with
    | (.ok _, d) => ⟨d, name :: l.names⟩
    | (.error _, d) => ⟨d, l.names⟩
  | .delete name =>
    match (delete runs name).run l.disk with
    | (.ok _, d) => ⟨d, l.names.filter (· ≠ name)⟩
    | (.error _, d) => ⟨d, l.names⟩
  | .work name change =>
    if name ∈ l.names then
      ⟨l.disk.change (runs.positionFrom l.disk.working ++ [name]) change, l.names⟩
    else l

/-- The ledger after calls, one after the other. -/
def after (runs : Path) (l : Ledger) (calls : List Call) : Ledger := calls.foldl (perform runs) l

/-- A ledger in which nothing was created yet, or one of which the folder of all runs holds the names. -/
inductive Accords (runs : Path) : Ledger → Prop where
  | unused {d : Disk} (h : Unused runs d) : Accords runs ⟨d, []⟩
  | holding {d : Disk} {names : List String} (h : HoldsRuns runs names d) : Accords runs ⟨d, names⟩

variable {l : Ledger}

/-- A creation succeeds if the name is a proper and a new one, and fails otherwise. -/
theorem Accords.create_cases (h : Accords runs l) (holds : isName name = true → Holds runs name) :
    (¬ (Misnamed name ∨ name ∈ l.names) ∧
      ∃ e, (create runs name).run l.disk = (.ok (runs.child name), e) ∧
        Accords runs ⟨e, name :: l.names⟩ ∧ Grows l.disk e) ∨
    (Misnamed name ∨ name ∈ l.names) ∧ ∃ f, (create runs name).run l.disk = (.error f, l.disk) := by
  cases hname : isName name with
  | false =>
      exact Or.inr ⟨Or.inl (isName_eq_false_iff.1 hname), _, run_create_of_misnamed hname runs _⟩
  | true =>
      have proper := not_misnamed_of_isName hname
      cases h with
      | @unused d h =>
          obtain ⟨made, hmade, hholds, hgrows⟩ := h.exists_holdsRuns
          obtain ⟨e, hmake, he, hgrows'⟩ :=
            hholds.exists_create hname (holds hname) List.not_mem_nil
          exact Or.inl ⟨by simpa using proper, e, run_create_of_made hname hmade hmake, .holding he,
            hgrows.trans hgrows'⟩
      | @holding d names h =>
          have hmade := Disk.makeAll_of_isFolder h.isFolder
          by_cases hmem : name ∈ names
          · exact Or.inr ⟨Or.inr hmem, _,
              run_create_of_present hname hmade (h.make_eq_present hmem)⟩
          · obtain ⟨e, hmake, he, hgrows⟩ := h.exists_create hname (holds hname) hmem
            exact Or.inl ⟨not_or.2 ⟨proper, hmem⟩, e, run_create_of_made hname hmade hmake,
              .holding he, hgrows⟩

/-- A deletion succeeds if the name is there, and fails otherwise. -/
theorem Accords.delete_cases (h : Accords runs l) (name : String) :
    (¬ (Misnamed name ∨ name ∉ l.names) ∧
      ∃ e, (delete runs name).run l.disk = (.ok (), e) ∧
        Accords runs ⟨e, l.names.filter (· ≠ name)⟩ ∧
        Replaces (runs.positionFrom l.disk.working ++ [name]) none l.disk e) ∨
    (Misnamed name ∨ name ∉ l.names) ∧ ∃ f, (delete runs name).run l.disk = (.error f, l.disk) := by
  cases hname : isName name with
  | false =>
      exact Or.inr ⟨Or.inl (isName_eq_false_iff.1 hname), _, run_delete_of_misnamed hname runs _⟩
  | true =>
      have plain := isPlain_of_isName hname
      have proper := not_misnamed_of_isName hname
      cases h with
      | @unused d h =>
          exact Or.inr ⟨Or.inr List.not_mem_nil, _,
            run_delete_of_not_isFolder hname (h.isFolder_child plain)⟩
      | @holding d names h =>
          by_cases hmem : name ∈ names
          · obtain ⟨e, hremove, he, hr⟩ := h.exists_delete hmem
            exact Or.inl ⟨not_or.2 ⟨proper, not_not_intro hmem⟩, e,
              run_delete_of_isFolder hname ((h.isFolder_child_iff plain).2 hmem) hremove,
              .holding he, hr⟩
          · have hfolder : d.isFolder (runs.child name) = false := by
              rw [← Bool.not_eq_true, h.isFolder_child_iff plain]
              exact hmem
            exact Or.inr ⟨Or.inr hmem, _, run_delete_of_not_isFolder hname hfolder⟩

/-- A call keeps the ledger in accord with the disk. -/
theorem Accords.perform (h : Accords runs l) (call : Call)
    (carried : ∀ name, call = .create name → isName name = true → Holds runs name) :
    Accords runs (l.perform runs call) := by
  cases call with
  | create name =>
      rw [Ledger.perform]
      rcases h.create_cases (carried name rfl) with ⟨-, e, hrun, he, -⟩ | ⟨-, f, hrun⟩ <;> rw [hrun]
      · exact he
      · exact h
  | delete name =>
      rw [Ledger.perform]
      rcases h.delete_cases name with ⟨-, e, hrun, he, -⟩ | ⟨-, f, hrun⟩ <;> rw [hrun]
      · exact he
      · exact h
  | work name change =>
      rw [Ledger.perform]
      split
      · next hmem =>
          cases h with
          | unused h => cases hmem
          | holding h => exact .holding (h.work hmem change)
      · exact h

theorem Accords.after (h : Accords runs l) (calls : List Call)
    (carried : ∀ name, .create name ∈ calls → isName name = true → Holds runs name) :
    Accords runs (l.after runs calls) := by
  induction calls generalizing l with
  | nil => exact h
  | cons call calls ih =>
      refine ih (h.perform call fun name hcall => ?_) fun name hcall => ?_
      · exact carried name (hcall ▸ List.mem_cons_self)
      · exact carried name (List.mem_cons_of_mem _ hcall)

/-- The folder of all runs behaves as the set of the names in a ledger. -/
structure IsSet (runs : Path) (l : Ledger) : Prop where
  /-- The names are listed, each once, in descending order of their bytes. -/
  listed : ∃ entries, (list runs).run l.disk = (.ok entries, l.disk) ∧
    (∀ name, name ∈ entries.map Entry.name ↔ name ∈ l.names) ∧
    (entries.map Entry.name).Pairwise fun a b => Text.bytes b < Text.bytes a
  /-- A creation fails if the name is not one of a run or is there already, and then changes nothing. -/
  created : ∀ name, (isName name = true → Holds runs name) →
    ((∃ f, ((create runs name).run l.disk).1 = .error f) ↔ Misnamed name ∨ name ∈ l.names) ∧
    ∀ f e, (create runs name).run l.disk = (.error f, e) → e = l.disk
  /-- A deletion fails if the name is not one of a run or is not there, and then changes nothing. -/
  deleted : ∀ name,
    ((∃ f, ((delete runs name).run l.disk).1 = .error f) ↔ Misnamed name ∨ name ∉ l.names) ∧
    ∀ f e, (delete runs name).run l.disk = (.error f, e) → e = l.disk
  /-- A creation that succeeds takes nothing away. -/
  grown : ∀ name folder e, (isName name = true → Holds runs name) →
    (create runs name).run l.disk = (.ok folder, e) → Grows l.disk e
  /-- A deletion that succeeds takes away the folder of the run and what is in it. -/
  removed : ∀ name e, (delete runs name).run l.disk = (.ok (), e) →
    Replaces (runs.positionFrom l.disk.working ++ [name]) none l.disk e

theorem Accords.isSet (h : Accords runs l) : l.IsSet runs := by
  refine ⟨?_, fun name holds => ?_, fun name => ?_, fun name folder e holds hrun => ?_,
    fun name e hrun => ?_⟩
  · cases h with
    | @unused d h => exact ⟨[], h.run_list, fun _ => Iff.rfl, List.Pairwise.nil⟩
    | holding h => exact h.exists_list
  · rcases h.create_cases holds with ⟨hnot, e, hrun, -⟩ | ⟨hor, f, hrun⟩ <;> rw [hrun]
    · exact ⟨⟨nofun, fun hor => absurd hor hnot⟩, nofun⟩
    · refine ⟨⟨fun _ => hor, fun _ => ⟨f, rfl⟩⟩, ?_⟩
      rintro _ _ ⟨⟩
      rfl
  · rcases h.delete_cases name with ⟨hnot, e, hrun, -⟩ | ⟨hor, f, hrun⟩ <;> rw [hrun]
    · exact ⟨⟨nofun, fun hor => absurd hor hnot⟩, nofun⟩
    · refine ⟨⟨fun _ => hor, fun _ => ⟨f, rfl⟩⟩, ?_⟩
      rintro _ _ ⟨⟩
      rfl
  · rcases h.create_cases holds with ⟨-, e', hrun', -, hgrows⟩ | ⟨-, f, hrun'⟩ <;> rw [hrun'] at hrun
    · cases hrun
      exact hgrows
    · cases hrun
  · rcases h.delete_cases name with ⟨-, e', hrun', -, hr⟩ | ⟨-, f, hrun'⟩ <;> rw [hrun'] at hrun
    · cases hrun
      exact hr
    · cases hrun

/-- In every history that starts without the folder of all runs, the folder behaves as the set of the
names that were created and not deleted since, if the disk makes an empty folder for all runs and has
room for every name that is created. -/
theorem runs_are_set {start : Disk} (unused : Unused runs start) (calls : List Call)
    (carried : ∀ name, .create name ∈ calls → isName name = true → Holds runs name) :
    (after runs ⟨start, []⟩ calls).IsSet runs :=
  ((Accords.unused unused).after calls carried).isSet

/-- A history in which a name is created twice and deleted, and one is tried that leads elsewhere. -/
def twoRuns : List Call :=
  [.create "first", .work "first" (Folder.put "state.json" (.file "\x7b\x7d".toUTF8)), .create "first",
    .create "second", .delete "../runs/second", .delete "first"]

theorem unused_runs : Unused ⟨"runs"⟩ default :=
  unused_of_leadsDown (by decide +kernel) (by decide +kernel)
    (Disk.leadsDown_of_down (by decide +kernel) default)
    (e := ⟨.folder "runs" .nil .nil, []⟩) (by rfl)

theorem runs_are_set_second :
    ∃ entries, (list ⟨"runs"⟩).run (after ⟨"runs"⟩ ⟨default, []⟩ twoRuns).disk =
        (.ok entries, (after ⟨"runs"⟩ ⟨default, []⟩ twoRuns).disk) ∧
      ∀ name, name ∈ entries.map Entry.name ↔ name ∈ ["second"] := by
  have hset := runs_are_set unused_runs twoRuns fun name hcall _ => by
    have hname : name = "first" ∨ name = "second" := by simpa [twoRuns] using hcall
    rcases hname with rfl | rfl <;> decide +kernel
  obtain ⟨entries, hrun, hmem, -⟩ := hset.listed
  have hnames : (after ⟨"runs"⟩ ⟨default, []⟩ twoRuns).names = ["second"] := by decide +kernel
  exact ⟨entries, hrun, fun name => hnames ▸ hmem name⟩

/-- Where the path of all runs leads up from a folder that is missing, that folder is made on the way and
listed as a run. -/
theorem not_runs_are_set :
    ¬ ∀ (runs : Path) (start : Disk) (calls : List Call), start.isThere runs = false →
      (∃ e, start.makeAll runs = (e, .ok ()) ∧ e.isFolder runs = true) →
      (∀ name, .create name ∈ calls → isName name = true → Holds runs name) →
        (after runs ⟨start, []⟩ calls).IsSet runs := by
  intro h
  have hset := h ⟨"b/x/.."⟩ default [.create "r"] (by decide +kernel)
    ⟨⟨.folder "b" (.folder "x" .nil .nil) .nil, []⟩, by rfl, by decide +kernel⟩ fun name hcall _ => by
      obtain rfl : name = "r" := by simpa using hcall
      decide +kernel
  obtain ⟨entries, hrun, hmem, -⟩ := hset.listed
  have hlisted : (after ⟨"b/x/.."⟩ ⟨default, []⟩ [.create "r"]).disk.foldersIn ⟨"b/x/.."⟩ =
      .ok ["r", "x"] := by rfl
  rw [run_list_of_foldersIn (by decide +kernel) hlisted] at hrun
  cases hrun
  have hx := hmem "x"
  rw [map_name_map_ofName, List.mem_mergeSort] at hx
  exact absurd (hx.1 (by decide)) (by decide +kernel)

end Ledger

end Run

end GuidedLab
