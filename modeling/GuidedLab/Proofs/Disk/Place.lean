import GuidedLab.Proofs.Disk.Find
import GuidedLab.Proofs.Path.Position

/-!
# Paths on a disk

Following a path on a disk ends, if it ends at all, at the position that the text of the path tells,
and what is found there is what the place says (`place_eq_ok`). On the way only folders are passed.

What is found stays found while a disk *grows*, and so a path that leads to a folder keeps leading to
it. The place of a name in such a folder depends on one position alone (`place_child`).
-/

namespace GuidedLab

open GuidedLab.Path (walk IsPlain)

namespace Place

/-- The position of a place. -/
def position : Place → List String
  | .folder p => p
  | .file above name _ => above ++ [name]
  | .free above name _ => above ++ [name]

/-- The position of the folder that a place is, or is in. -/
def above : Place → List String
  | .folder p => p
  | .file above _ _ => above
  | .free above _ _ => above

/-- What is found at a place. -/
def found? : Place → Option Found
  | .folder _ => some .folder
  | .file _ _ content => some (.file content)
  | .free .. => none

end Place

namespace Disk

variable {d d' : Disk} {p q segments : List String} {path folder : Path} {name s : String} {x : Place}

/-- The place of a plain name in the folder at a position. -/
def placeIn (d : Disk) (above : List String) (name : String) : Place :=
  match d.find? (above ++ [name]) with
  | some .folder => .folder (above ++ [name])
  | some (.file content) => .file above name content
  | none => .free above name false

theorem find?_dropLast (h : d.find? p = some .folder) : d.find? p.dropLast = some .folder := by
  by_cases hp : p = []
  · rw [hp]
    rfl
  · apply find?_eq_folder_of_below (List.dropLast_prefix p)
    · intro e
      have hlen := congrArg List.length e
      rw [List.length_dropLast] at hlen
      exact hp (List.eq_nil_of_length_eq_zero (by omega))
    · rw [h]
      exact Option.some_ne_none _

theorem find?_concat (d : Disk) (p : List String) (s : String) :
    d.find? (p ++ [s]) = (d.entry? p s).bind fun e => e.find? [] := by
  rw [ entry?]
  cases hg : d.root.at? p with
  | some g =>
      rw [find?, Folder.find?_append hg, Folder.find?_cons]
      rfl
  | none =>
      rw [Option.bind_none, Option.bind_none]
      cases hf : d.find? (p ++ [s]) with
      | none => rfl
      | some v =>
          obtain ⟨g, h⟩ := Folder.find?_eq_folder_iff.1
            (find?_eq_folder_of_below (d := d) (List.prefix_append p [s]) (by simp)
              (by rw [hf]; exact Option.some_ne_none v))
          rw [hg] at h
          cases h

theorem follow_idle (h : Path.isIdle s = true) (d : Disk) (p rest : List String) :
    d.follow p (s :: rest) = d.follow p rest := by
  rw [follow, if_pos h]

theorem follow_up (d : Disk) (p rest : List String) :
    d.follow p (".." :: rest) = d.follow p.dropLast rest := by
  rw [follow, if_neg (by decide), if_pos rfl]

theorem follow_name (h : Path.isIdle s = false) (hs : s ≠ "..") (d : Disk) (p rest : List String) :
    d.follow p (s :: rest) =
      if longestName < s.utf8ByteSize then .error .tooLong
      else
        match d.find? (p ++ [s]) with
        | some .folder => d.follow (p ++ [s]) rest
        | some (.file content) =>
          if rest.isEmpty then .ok (.file p s content) else .error .notFolder
        | none =>
          if rest.all (·.isEmpty) then .ok (.free p s !rest.isEmpty) else .error .missing := by
  rw [follow, h, if_neg Bool.false_ne_true, if_neg hs, find?_concat]
  cases d.entry? p s with
  | none => rfl
  | some e => cases e <;> rfl

theorem walk_of_all_isEmpty {rest : List String} (h : rest.all (·.isEmpty) = true)
    (start : List String) : walk start rest = start := by
  induction rest generalizing start with
  | nil => rfl
  | cons s rest ih =>
      rw [List.all_cons, Bool.and_eq_true] at h
      obtain rfl : s = "" := by simpa using h.1
      exact ih h.2 start

theorem follow_eq_ok (hp : d.find? p = some .folder) (h : d.follow p segments = .ok x) :
    x.position = walk p segments ∧ d.find? x.position = x.found? ∧
      d.find? x.above = some .folder := by
  induction segments generalizing p with
  | nil =>
      cases h
      exact ⟨rfl, hp, hp⟩
  | cons s rest ih =>
      rw [Path.walk_cons]
      by_cases hidle : Path.isIdle s = true
      · rw [follow_idle hidle] at h
        rw [Path.walk_idle hidle]
        exact ih hp h
      by_cases hs : s = ".."
      · subst hs
        rw [follow_up] at h
        exact ih (find?_dropLast hp) h
      have hidle : Path.isIdle s = false := Bool.eq_false_iff.2 hidle
      rw [follow_name hidle hs] at h
      rw [Path.walk_name hidle hs]
      split at h
      · cases h
      · split at h
        · next hf => exact ih hf h
        · next content hf =>
            split at h
            · next hr =>
                cases h
                rw [List.isEmpty_iff.1 hr]
                exact ⟨rfl, hf, hp⟩
            · cases h
        · next hf =>
            split at h
            · next hr =>
                cases h
                exact ⟨(walk_of_all_isEmpty hr _).symm, hf, hp⟩
            · cases h

/-- On the way to what is found only folders are passed. -/
theorem find?_walk_of_follow (hp : d.find? p = some .folder) (h : d.follow p segments = .ok x)
    (hx : x.found? ≠ none) {b : List String} (hb : b <+: segments) (ne : b ≠ segments) :
    d.find? (walk p b) = some .folder := by
  induction segments generalizing p b with
  | nil => exact absurd (List.prefix_nil.1 hb) ne
  | cons s rest ih =>
      cases b with
      | nil => exact hp
      | cons t b =>
          obtain ⟨rfl, hrest⟩ := List.cons_prefix_cons.1 hb
          have hne : b ≠ rest := fun e => ne (by rw [e])
          rw [Path.walk_cons]
          by_cases hidle : Path.isIdle t = true
          · rw [follow_idle hidle] at h
            rw [Path.walk_idle hidle]
            exact ih hp h hrest hne
          by_cases hs : t = ".."
          · subst hs
            rw [follow_up] at h
            exact ih (find?_dropLast hp) h hrest hne
          have hidle : Path.isIdle t = false := Bool.eq_false_iff.2 hidle
          rw [follow_name hidle hs] at h
          rw [Path.walk_name hidle hs]
          split at h
          · cases h
          · split at h
            · next hf => exact ih hf h hrest hne
            · split at h
              · next hr =>
                  rw [List.isEmpty_iff.1 hr] at hrest hne
                  exact absurd (List.prefix_nil.1 hrest) hne
              · cases h
            · split at h
              · cases h
                exact absurd rfl hx
              · cases h

theorem follow_eq_folder (hp : d.find? p = some .folder)
    (h : d.follow p segments = .ok (.folder q)) {b : List String} (hb : b <+: segments) :
    d.find? (walk p b) = some .folder := by
  by_cases he : b = segments
  · obtain ⟨hposition, hfound, -⟩ := follow_eq_ok hp h
    rw [he, ← hposition]
    exact hfound
  · exact find?_walk_of_follow hp h (Option.some_ne_none _) hb he

/-! ### The place of a path -/

/-- A text that a path can have on a disk. -/
structure IsSound (path : Path) : Prop where
  noNul : path.text.toList.contains (Char.ofNat 0) = false
  notEmpty : path.text.isEmpty = false
  short : path.text.utf8ByteSize ≤ longestPath

instance (path : Path) : Decidable (IsSound path) :=
  decidable_of_iff (path.text.toList.contains (Char.ofNat 0) = false ∧ path.text.isEmpty = false ∧
      path.text.utf8ByteSize ≤ longestPath)
    ⟨fun ⟨noNul, notEmpty, short⟩ => ⟨noNul, notEmpty, short⟩,
      fun h => ⟨h.noNul, h.notEmpty, h.short⟩⟩

/-- The folder that a path is followed from, if it is there. -/
def base? (d : Disk) (path : Path) : Option (List String) :=
  if path.isAbsolute then some []
  else if (d.root.at? d.working).isNone then none else some d.working

theorem place_eq (sound : IsSound path) (d : Disk) :
    d.place path =
      match d.base? path with
      | none => .error .missing
      | some base => d.follow base path.segments := by
  rw [place, sound.noNul, sound.notEmpty, if_neg Bool.false_ne_true, if_neg Bool.false_ne_true,
    if_neg (Nat.not_lt.2 sound.short), base?]
  split
  · rfl
  · split <;> rfl

theorem isSound_of_place (h : d.place path = .ok x) : IsSound path := by
  rw [place] at h
  split at h
  · cases h
  · next hn =>
      split at h
      · cases h
      · next he =>
          split at h
          · cases h
          · next hl =>
              exact ⟨Bool.eq_false_iff.2 hn, Bool.eq_false_iff.2 he, Nat.le_of_not_lt hl⟩

theorem find?_base? {base : List String} (h : d.base? path = some base) :
    d.find? base = some .folder ∧
      base = if path.isAbsolute then [] else d.working := by
  rw [base?] at h
  split at h
  · next ha =>
      cases h
      exact ⟨rfl, (if_pos ha).symm⟩
  · next ha =>
      split at h
      · cases h
      · next hw =>
          cases h
          refine ⟨Folder.find?_eq_folder_iff.2 ?_, (if_neg ha).symm⟩
          exact Option.ne_none_iff_exists'.1 (by simpa using hw)

/-- A path is followed from the same folder wherever that folder is there. -/
theorem base?_of_found {base : List String} (h : d.base? path = some base)
    (working : d'.working = d.working) (there : d'.find? base = some .folder) :
    d'.base? path = some base := by
  obtain ⟨-, hbase⟩ := find?_base? h
  rw [base?]
  split
  · next ha => rw [hbase, if_pos ha]
  · next ha =>
      rw [if_neg ha, ← working] at hbase
      subst hbase
      obtain ⟨g, hg⟩ := Folder.find?_eq_folder_iff.1 there
      rw [hg]
      rfl

theorem exists_base_of_place (h : d.place path = .ok x) :
    ∃ base, d.base? path = some base ∧ d.follow base path.segments = .ok x := by
  rw [place_eq (isSound_of_place h)] at h
  split at h
  · cases h
  · next base hb => exact ⟨base, hb, h⟩

/-- A path leads to the position that its text tells, and there is found what its place says, in a
folder. -/
theorem place_eq_ok (h : d.place path = .ok x) :
    x.position = path.positionFrom d.working ∧ d.find? x.position = x.found? ∧
      d.find? x.above = some .folder := by
  obtain ⟨base, hb, h⟩ := exists_base_of_place h
  obtain ⟨hf, hbase⟩ := find?_base? hb
  obtain ⟨hx, hfound, habove⟩ := follow_eq_ok hf h
  refine ⟨?_, hfound, habove⟩
  rw [hx, hbase]
  rfl

theorem place_of_isFolder (h : d.isFolder path = true) :
    d.place path = .ok (.folder (path.positionFrom d.working)) := by
  rw [isFolder] at h
  split at h
  · next position hplace =>
      rw [hplace, ← (place_eq_ok hplace).1]
      rfl
  · cases h

/-- A path to a folder passes folders only. -/
theorem find?_of_passes (h : d.place path = .ok (.folder p)) (hq : path.Passes d.working q) :
    d.find? q = some .folder := by
  obtain ⟨base, hb, h⟩ := exists_base_of_place h
  obtain ⟨hf, hbase⟩ := find?_base? hb
  obtain ⟨b, hpre, rfl⟩ := hq
  rw [show path.base d.working = base from hbase.symm]
  exact follow_eq_folder hf h hpre

/-- Where segments lead depends on what is found on the way. -/
theorem follow_congr (same : ∀ b, b <+: segments → d'.find? (walk p b) = d.find? (walk p b)) :
    d'.follow p segments = d.follow p segments := by
  induction segments generalizing p with
  | nil => rfl
  | cons s rest ih =>
      have hrest : ∀ b, b <+: rest → d'.find? (walk (walk p [s]) b) = d.find? (walk (walk p [s]) b) := by
        intro b hb
        have hsame := same (s :: b) (List.cons_prefix_cons.2 ⟨rfl, hb⟩)
        rwa [Path.walk_cons] at hsame
      by_cases hidle : Path.isIdle s = true
      · rw [Path.walk_idle hidle] at hrest
        rw [follow_idle hidle, follow_idle hidle, ih hrest]
      by_cases hs : s = ".."
      · subst hs
        rw [follow_up, follow_up]
        exact ih hrest
      have hidle : Path.isIdle s = false := Bool.eq_false_iff.2 hidle
      rw [Path.walk_name hidle hs] at hrest
      have hname : d'.find? (p ++ [s]) = d.find? (p ++ [s]) := hrest [] List.nil_prefix
      rw [follow_name hidle hs, follow_name hidle hs, hname, ih hrest]

/-- The place of a path depends on what is found at the positions that it passes. -/
theorem place_congr (working : d'.working = d.working)
    (same : ∀ q, path.Passes d.working q → d'.find? q = d.find? q) : d'.place path = d.place path := by
  have hfollow : d'.follow (path.base d.working) path.segments =
      d.follow (path.base d.working) path.segments :=
    follow_congr fun b hb => same _ ⟨b, hb, rfl⟩
  rw [place, place]
  by_cases ha : path.isAbsolute = true
  · rw [Path.base, if_pos ha] at hfollow
    rw [if_pos ha, if_pos ha, hfollow]
  · have hbase : path.base d.working = d.working := if_neg ha
    have hthere : d'.find? d.working = d.find? d.working :=
      same _ ⟨[], List.nil_prefix, hbase.symm⟩
    have hnone : ∀ e : Disk, (e.root.at? d.working).isNone = true ↔ e.find? d.working ≠ some .folder := by
      intro e
      rw [ne_eq, find?, Folder.find?_eq_folder_iff, Option.isNone_iff_eq_none,
        Option.eq_none_iff_forall_ne_some, not_exists]
    have hmissing : (d'.root.at? d.working).isNone = (d.root.at? d.working).isNone := by
      rw [Bool.eq_iff_iff, hnone, hnone, hthere]
    rw [hbase] at hfollow
    rw [if_neg ha, if_neg ha, working, hmissing, hfollow]

/-- A path to a file in a folder shows that the path of the folder passes folders only. -/
theorem find?_of_passes_child (whole : '/' ∉ name.toList)
    (h : d.place (folder.child name) = .ok x) (hx : x.found? ≠ none)
    (hq : folder.Passes d.working q) : d.find? q = some .folder := by
  obtain ⟨base, hb, h⟩ := exists_base_of_place h
  obtain ⟨hf, hbase⟩ := find?_base? hb
  obtain ⟨first, hfolder, hchild⟩ := Path.exists_segments_child folder whole
  rw [hchild] at h
  have key : ∀ b, b <+: first → d.find? (walk base b) = some .folder := by
    intro b hb
    apply find?_walk_of_follow hf h hx (hb.trans (List.prefix_append first _))
    rintro rfl
    have hlen := hb.length_le
    rw [List.length_append] at hlen
    exact absurd hlen (Nat.not_succ_le_self _)
  obtain ⟨b, hpre, rfl⟩ := hq
  have hbase : folder.base d.working = base := by
    rw [hbase, Path.base, Path.child, Path.isAbsolute_join folder (Path.isAbsolute_whole whole)]
  rw [hbase]
  rcases hfolder with hfolder | hfolder
  · exact key b (hfolder ▸ hpre)
  · rw [hfolder] at hpre
    rcases List.prefix_concat_iff.1 hpre with rfl | hpre
    · rw [Path.walk_append, Path.walk_empty]
      exact key first List.prefix_rfl
    · exact key b hpre

/-! ### Growing disks -/

/-- What is found on the first disk is found on the second one too. -/
structure Grows (d d' : Disk) : Prop where
  working : d'.working = d.working
  find? : ∀ q v, d.find? q = some v → d'.find? q = some v

theorem Grows.refl (d : Disk) : Grows d d := ⟨rfl, fun _ _ h => h⟩

theorem Grows.trans {e : Disk} (h : Grows d e) (h' : Grows e d') : Grows d d' :=
  ⟨h'.working.trans h.working, fun q v hv => h'.find? q v (h.find? q v hv)⟩

theorem Grows.follow (h : Grows d d') (hx : x.found? ≠ none) (hp : d.follow p segments = .ok x) :
    d'.follow p segments = .ok x := by
  induction segments generalizing p with
  | nil => exact hp
  | cons s rest ih =>
      by_cases hidle : Path.isIdle s = true
      · rw [follow_idle hidle] at hp ⊢
        exact ih hp
      by_cases hs : s = ".."
      · subst hs
        rw [follow_up] at hp ⊢
        exact ih hp
      have hidle : Path.isIdle s = false := Bool.eq_false_iff.2 hidle
      rw [follow_name hidle hs] at hp ⊢
      split at hp
      · cases hp
      · next hlen =>
          rw [if_neg hlen]
          split at hp
          · next hf =>
              rw [h.find? _ _ hf]
              exact ih hp
          · next content hf =>
              rw [h.find? _ _ hf]
              exact hp
          · split at hp
            · cases hp
              exact absurd rfl hx
            · cases hp

theorem Grows.base? (h : Grows d d') {base : List String} (hb : d.base? path = some base) :
    d'.base? path = some base :=
  base?_of_found hb h.working (h.find? _ _ (find?_base? hb).1)

/-- A path that leads to something keeps leading to it. -/
theorem Grows.place (h : Grows d d') (hx : x.found? ≠ none) (hp : d.place path = .ok x) :
    d'.place path = .ok x := by
  obtain ⟨base, hb, hfollow⟩ := exists_base_of_place hp
  rw [place_eq (isSound_of_place hp), h.base? hb]
  exact h.follow hx hfollow

/-! ### Names in a folder -/

/-- A name that the folder at a path can have something under. -/
structure Holds (folder : Path) (name : String) : Prop where
  plain : IsPlain name
  short : name.utf8ByteSize ≤ longestName
  sound : IsSound (folder.child name)

instance (folder : Path) (name : String) : Decidable (Holds folder name) :=
  decidable_of_iff
    (IsPlain name ∧ name.utf8ByteSize ≤ longestName ∧ IsSound (folder.child name))
    ⟨fun ⟨plain, short, sound⟩ => ⟨plain, short, sound⟩, fun h => ⟨h.plain, h.short, h.sound⟩⟩

theorem follow_append {tail : List String} (htail : tail = [] ∨ tail = [""])
    (h : d.follow p (segments ++ tail) = .ok (.folder q)) (rest : List String) :
    d.follow p (segments ++ rest) = d.follow q rest := by
  induction segments generalizing p with
  | nil =>
      rcases htail with rfl | rfl
      · cases h
        rfl
      · rw [List.nil_append, follow_idle rfl] at h
        cases h
        rfl
  | cons s segments ih =>
      rw [List.cons_append] at h ⊢
      by_cases hidle : Path.isIdle s = true
      · rw [follow_idle hidle] at h ⊢
        exact ih h
      by_cases hs : s = ".."
      · subst hs
        rw [follow_up] at h ⊢
        exact ih h
      have hidle : Path.isIdle s = false := Bool.eq_false_iff.2 hidle
      rw [follow_name hidle hs] at h ⊢
      split at h
      · cases h
      · next hlen =>
          rw [if_neg hlen]
          split at h
          · exact ih h
          · split at h <;> cases h
          · split at h <;> cases h

/-- A row of segments that leads on by a name leads to a folder up to there. -/
theorem exists_follow_of_concat (h : d.follow p (segments ++ [name]) = .ok x) (ne : name ≠ "") :
    ∃ q, d.follow p segments = .ok (.folder q) ∧ d.follow q [name] = .ok x := by
  induction segments generalizing p with
  | nil => exact ⟨p, rfl, h⟩
  | cons s segments ih =>
      rw [List.cons_append] at h
      by_cases hidle : Path.isIdle s = true
      · rw [follow_idle hidle] at h ⊢
        exact ih h
      by_cases hs : s = ".."
      · subst hs
        rw [follow_up] at h ⊢
        exact ih h
      have hidle : Path.isIdle s = false := Bool.eq_false_iff.2 hidle
      rw [follow_name hidle hs] at h ⊢
      split at h
      · cases h
      · next hlen =>
          rw [if_neg hlen]
          split at h
          · exact ih h
          · split at h
            · next hr => simp at hr
            · cases h
          · split at h
            · next hr =>
                -- the name is not empty, so it is not among the empty segments at the end
                have hempty : name = "" := by simpa using (List.all_eq_true.1 hr) name (by simp)
                exact absurd hempty ne
            · cases h

theorem ne_empty_of_isPlain (plain : IsPlain name) : name ≠ "" := by
  rintro rfl
  exact absurd plain.meant (by decide)

theorem short_of_follow (h : d.follow p (segments ++ [name]) = .ok x) (plain : IsPlain name) :
    name.utf8ByteSize ≤ longestName := by
  obtain ⟨q, -, hname⟩ := exists_follow_of_concat h (ne_empty_of_isPlain plain)
  rw [follow_name plain.meant plain.down] at hname
  split at hname
  · cases hname
  · next hlen => exact Nat.le_of_not_lt hlen

theorem follow_plain (plain : IsPlain name) (short : name.utf8ByteSize ≤ longestName) (d : Disk)
    (p : List String) : d.follow p [name] = .ok (d.placeIn p name) := by
  rw [follow_name plain.meant plain.down, if_neg (Nat.not_lt.2 short), placeIn]
  cases d.find? (p ++ [name]) with
  | none => rfl
  | some v => cases v <;> rfl

theorem base?_child (whole : '/' ∉ name.toList) (d : Disk) (folder : Path) :
    d.base? (folder.child name) = d.base? folder := by
  rw [base?, base?, Path.child, Path.isAbsolute_join folder (Path.isAbsolute_whole whole)]

/-- What is at a name in a folder depends on what is found at one position. -/
theorem place_child (h : d.place folder = .ok (.folder p)) (holds : Holds folder name) :
    d.place (folder.child name) = .ok (d.placeIn p name) := by
  obtain ⟨base, hb, h⟩ := exists_base_of_place h
  obtain ⟨first, hfolder, hchild⟩ := Path.exists_segments_child folder holds.plain.whole
  rw [place_eq holds.sound, base?_child holds.plain.whole, hb]
  dsimp only
  rw [hchild, ← follow_plain holds.plain holds.short]
  rcases hfolder with hfolder | hfolder
  · rw [hfolder, ← List.append_nil first] at h
    exact follow_append (Or.inl rfl) h [name]
  · rw [hfolder] at h
    exact follow_append (Or.inr rfl) h [name]

/-- A path that has a text with a name after it has a text itself, if it is not empty. -/
theorem isSound_of_child (whole : '/' ∉ name.toList) (ne : folder.text ≠ "")
    (h : IsSound (folder.child name)) : IsSound folder := by
  obtain ⟨sep, -, htext⟩ := Path.exists_text_join folder (Path.isAbsolute_whole whole)
  obtain ⟨noNul, -, short⟩ := h
  rw [Path.child, htext] at noNul short
  refine ⟨?_, by simpa using ne, ?_⟩
  · simp only [String.toList_append, List.contains_eq_mem, List.mem_append, decide_eq_false_iff_not,
      not_or] at noNul ⊢
    exact noNul.1.1
  · rw [String.utf8ByteSize_append, String.utf8ByteSize_append] at short
    omega

/-- A text with a name after it is that of a path if it is not too long. -/
theorem isSound_child (h : IsSound folder) (plain : IsPlain name)
    (noNul : Char.ofNat 0 ∉ name.toList) (short : (folder.child name).text.utf8ByteSize ≤ longestPath) :
    IsSound (folder.child name) := by
  obtain ⟨sep, hsep, htext⟩ := Path.exists_text_join folder (Path.isAbsolute_whole plain.whole)
  refine ⟨?_, ?_, short⟩
  · have hfolder := h.noNul
    rw [List.contains_eq_mem, decide_eq_false_iff_not] at hfolder ⊢
    rw [Path.child, htext, String.toList_append, String.toList_append, List.mem_append, List.mem_append]
    rintro ((hmem | hmem) | hmem)
    · exact hfolder hmem
    · rcases hsep with rfl | rfl <;> exact absurd hmem (by decide)
    · exact noNul hmem
  · have hname := ne_empty_of_isPlain plain
    rw [Path.child, htext]
    simp [hname]

/-- Something can be at a name only in a folder that is there. -/
theorem exists_place_of_child (plain : IsPlain name) (ne : folder.text ≠ "")
    (h : d.place (folder.child name) = .ok x) : ∃ p, d.place folder = .ok (.folder p) := by
  have hsound := isSound_of_child plain.whole ne (isSound_of_place h)
  obtain ⟨base, hb, hfollow⟩ := exists_base_of_place h
  rw [base?_child plain.whole] at hb
  obtain ⟨first, hfolder, hchild⟩ := Path.exists_segments_child folder plain.whole
  rw [hchild] at hfollow
  obtain ⟨q, hq, -⟩ := exists_follow_of_concat hfollow (ne_empty_of_isPlain plain)
  refine ⟨q, ?_⟩
  rw [place_eq hsound, hb]
  dsimp only
  rcases hfolder with hfolder | hfolder
  · rw [hfolder, hq]
  · rw [← List.append_nil first] at hq
    rw [hfolder, follow_append (Or.inl rfl) hq [""], follow_idle rfl]
    rfl

theorem holds_of_place (plain : IsPlain name) (h : d.place (folder.child name) = .ok x) :
    Holds folder name := by
  refine ⟨plain, ?_, isSound_of_place h⟩
  obtain ⟨base, -, h⟩ := exists_base_of_place h
  obtain ⟨first, -, hchild⟩ := Path.exists_segments_child folder plain.whole
  rw [hchild] at h
  exact short_of_follow h plain

end Disk

end GuidedLab
