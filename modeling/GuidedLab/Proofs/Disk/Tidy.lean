import GuidedLab.Proofs.Disk.Change
import GuidedLab.Proofs.Disk.Entries
import GuidedLab.Proofs.Disk.Job

/-!
# Tidy disks

A disk is tidy when all folders on it keep their entries in the order of their names. Every operation puts
entries into folders in their places, takes entries away or empties a folder, so it leaves a tidy disk tidy,
and so does an operation that is refused when part of it is done.
-/

namespace GuidedLab

namespace Folder

variable {f inner : Folder} {name : String} {e : Entry}

/-- The entries of a folder are in order, and so are those of all folders in it at every depth. -/
def IsTidy (f : Folder) : Prop := ∀ p g, f.at? p = some g → g.Ordered

theorem IsTidy.ordered (h : f.IsTidy) : f.Ordered := h [] f rfl

theorem IsTidy.inside (h : f.IsTidy) (hinner : f.folder? name = some inner) : inner.IsTidy := by
  intro p g hg
  apply h (name :: p)
  rw [at?_cons, hinner]
  exact hg

theorem isTidy_iff :
    f.IsTidy ↔ f.Ordered ∧ ∀ name inner, f.folder? name = some inner → inner.IsTidy := by
  constructor
  · exact fun h => ⟨h.ordered, fun _ _ => h.inside⟩
  · rintro ⟨hordered, hinner⟩ p g hg
    cases p with
    | nil =>
        cases hg
        exact hordered
    | cons name p =>
        obtain ⟨inner, hi, hg⟩ := Option.bind_eq_some_iff.1 (at?_cons f name p ▸ hg)
        exact hinner name inner hi p g hg

theorem isTidy_nil : nil.IsTidy := isTidy_iff.2 ⟨ordered_nil, nofun⟩

theorem IsTidy.put (h : f.IsTidy) (name : String) (he : ∀ inner, e = .folder inner → inner.IsTidy) :
    (f.put name e).IsTidy := by
  refine isTidy_iff.2 ⟨ordered_put h.ordered name e, fun other inner hinner => ?_⟩
  rw [folder?_eq_some_iff] at hinner
  by_cases hother : other = name
  · rw [hother, get?_put_self] at hinner
    exact he inner (Option.some.inj hinner)
  · rw [get?_put_of_ne hother] at hinner
    exact h.inside (folder?_eq_some_iff.2 hinner)

theorem IsTidy.erase (h : f.IsTidy) (name : String) : (f.erase name).IsTidy := by
  refine isTidy_iff.2 ⟨ordered_erase h.ordered name, fun other inner hinner => ?_⟩
  rw [folder?_eq_some_iff] at hinner
  by_cases hother : other = name
  · rw [hother, get?_erase_self] at hinner
    cases hinner
  · rw [get?_erase_of_ne hother] at hinner
    exact h.inside (folder?_eq_some_iff.2 hinner)

theorem IsTidy.modify {work : Folder → Folder} (h : f.IsTidy)
    (keeps : ∀ g, g.IsTidy → (work g).IsTidy) (p : List String) : (f.modify work p).IsTidy := by
  induction p generalizing f with
  | nil => exact keeps f h
  | cons name p ih =>
      rw [Folder.modify]
      split
      · next inner hinner =>
          apply h.put name
          rintro _ ⟨⟩
          exact ih (h.inside hinner)
      · exact h

end Folder

namespace Disk

variable {d d' : Disk} {p : List String} {path source target : Path} {content : ByteArray}

/-- All folders keep their entries in order. -/
def IsTidy (d : Disk) : Prop := d.root.IsTidy

/-- The second disk is tidy if the first one is. -/
def StaysTidy (d d' : Disk) : Prop := d.IsTidy → d'.IsTidy

theorem IsTidy.orderedAt_of_place (h : d.IsTidy) (hplace : d.place path = .ok (.folder p)) :
    d.OrderedAt p := by
  obtain ⟨g, hg⟩ := Folder.find?_eq_folder_iff.1 (place_eq_ok hplace).2.1
  exact ⟨g, hg, h p g hg⟩

/-! ### Operations -/

theorem IsTidy.change_putFile (h : d.IsTidy) (p : List String) (name : String) (content : ByteArray) :
    (d.change p (Folder.put name (.file content))).IsTidy := by
  refine Folder.IsTidy.modify h (fun _ hg => hg.put name ?_) p
  rintro _ ⟨⟩

theorem IsTidy.change_erase (h : d.IsTidy) (p : List String) (name : String) :
    (d.change p (Folder.erase name)).IsTidy :=
  Folder.IsTidy.modify h (fun _ hg => hg.erase name) p

theorem staysTidy_write (h : d.write path content = .ok d') : StaysTidy d d' := by
  intro tidy
  rw [write] at h
  split at h
  · cases h
    exact tidy.change_putFile _ _ _
  · cases h
    exact tidy.change_putFile _ _ _
  · cases h
  · cases h
  · cases h

theorem staysTidy_copy (h : d.copy source target = .ok d') : StaysTidy d d' := by
  obtain ⟨content, -, hwrite⟩ := copy_eq_ok h
  exact staysTidy_write hwrite

theorem staysTidy_rename (h : d.rename source target = .ok d') : StaysTidy d d' := by
  intro tidy
  rw [rename] at h
  split at h
  · split at h
    · cases h
    · split at h
      · cases h
        exact (tidy.change_erase _ _).change_putFile _ _ _
      · cases h
        exact (tidy.change_erase _ _).change_putFile _ _ _
      · cases h
      · cases h
      · cases h
  · cases h
  · cases h
  · cases h

theorem staysTidy_make (h : d.make path = .ok d') : StaysTidy d d' := by
  intro tidy
  rw [make] at h
  split at h
  · cases h
    refine Folder.IsTidy.modify tidy (fun g hg => hg.put _ ?_) _
    rintro _ ⟨⟩
    exact Folder.isTidy_nil
  · cases h
  · cases h

theorem staysTidy_removeAll (d : Disk) (path : Path) : StaysTidy d (d.removeAll path).1 := by
  intro tidy
  rw [removeAll]
  split
  · split
    · exact tidy.change_erase _ _
    · exact Folder.IsTidy.modify tidy (fun _ _ => Folder.isTidy_nil) _
  · exact tidy
  · exact tidy
  · exact tidy

theorem staysTidy_makeNearest (d : Disk) (paths : List Path) :
    StaysTidy d (d.makeNearest paths).1 := by
  intro tidy
  induction paths with
  | nil => exact tidy
  | cons path above ih =>
      rw [makeNearest]
      split
      · exact tidy
      · split
        · next hmake => exact staysTidy_make hmake tidy
        · exact ih
        · split <;> exact tidy
        · exact tidy

theorem staysTidy_makeEach (d : Disk) (paths : List Path) : StaysTidy d (d.makeEach paths).1 := by
  intro tidy
  induction paths generalizing d with
  | nil => exact tidy
  | cons path rest ih =>
      rw [makeEach]
      split
      · next hmake => exact ih _ (staysTidy_make hmake tidy)
      · split
        · exact ih d tidy
        · exact tidy

theorem staysTidy_makeAll (d : Disk) (path : Path) : StaysTidy d (d.makeAll path).1 := by
  intro tidy
  have hnearest := staysTidy_makeNearest d path.ancestors tidy
  rw [makeAll]
  split
  · exact tidy
  · split
    · next h =>
        rw [h] at hnearest
        exact staysTidy_makeEach _ _ hnearest
    · next h =>
        rw [h] at hnearest
        exact hnearest

theorem staysTidy_refl (d : Disk) : StaysTidy d d := id

theorem staysTidy_trans (d e d' : Disk) (h : StaysTidy d e) (h' : StaysTidy e d') : StaysTidy d d' :=
  h' ∘ h

end Disk

namespace Job

open Disk

theorem keepsTidy_replaceText (p : Path) (text : String) : Keeps StaysTidy (replaceText p text) := by
  rw [replaceText]
  refine Keeps.bind staysTidy_trans (keeps_require staysTidy_refl _ _) fun above => ?_
  refine Keeps.bind staysTidy_trans (Keeps.changeInPart fun d => staysTidy_makeAll d above) fun _ => ?_
  refine Keeps.bind staysTidy_trans (keeps_require staysTidy_refl _ _) fun name => ?_
  refine Keeps.bind staysTidy_trans ?_ fun _ => ?_
  · exact Keeps.change staysTidy_refl fun _ _ h => staysTidy_write h
  · exact Keeps.change staysTidy_refl fun _ _ h => staysTidy_rename h

end Job

end GuidedLab
