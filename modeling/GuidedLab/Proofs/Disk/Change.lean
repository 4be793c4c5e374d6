import GuidedLab.Proofs.Disk.Place

/-!
# What an operation changes

A single operation that is done replaces what is found at one position, the one that its path leads to.
Making a folder with those above it only adds folders, at positions that the path passes, where nothing
was found before (`makes_makeAll`).

Most of what is said about a sequence of operations is that it changes the disk *below* a position only:
what is found at all other positions, that position included, stays the same.
-/

namespace GuidedLab.Disk

variable {d d' e : Disk} {p q : List String} {path source target : Path} {content : ByteArray}

/-! ### Single operations -/

theorem write_eq_ok (h : d.write path content = .ok d') :
    Replaces (path.positionFrom d.working) (some (.file content)) d d' := by
  rw [write] at h
  split at h
  · next above name old hx =>
      cases h
      obtain ⟨hpos, -, habove⟩ := place_eq_ok hx
      exact hpos ▸ replaces_put habove name (.file content)
  · next above name hx =>
      cases h
      obtain ⟨hpos, -, habove⟩ := place_eq_ok hx
      exact hpos ▸ replaces_put habove name (.file content)
  · cases h
  · cases h
  · cases h

/-- A file is never written where a folder is. -/
theorem find?_ne_folder_of_write (hp : path.positionFrom d.working = p)
    (h : d.write path content = .ok d') : d.find? p ≠ some .folder := by
  subst hp
  rw [write] at h
  split at h
  · next above name old hx =>
      obtain ⟨hpos, hfound, -⟩ := place_eq_ok hx
      rw [← hpos, hfound]
      nofun
  · next above name hx =>
      obtain ⟨hpos, hfound, -⟩ := place_eq_ok hx
      rw [← hpos, hfound]
      nofun
  · cases h
  · cases h
  · cases h

theorem make_eq_ok (h : d.make path = .ok d') :
    Replaces (path.positionFrom d.working) (some (.folder .nil)) d d' ∧
      d.find? (path.positionFrom d.working) = none := by
  rw [make] at h
  split at h
  · next above name only hx =>
      cases h
      obtain ⟨hpos, hfound, habove⟩ := place_eq_ok hx
      exact ⟨hpos ▸ replaces_put habove name (.folder .nil), hpos ▸ hfound⟩
  · cases h
  · cases h

theorem read_eq_ok (h : d.read path = .ok content) :
    ∃ above name, d.place path = .ok (.file above name content) := by
  rw [read] at h
  split at h
  · next above name c hx =>
      cases h
      exact ⟨above, name, hx⟩
  · cases h
  · cases h
  · cases h

/-- What is read is found at the position that the path leads to. -/
theorem find?_of_read (h : d.read path = .ok content) :
    d.find? (path.positionFrom d.working) = some (.file content) := by
  obtain ⟨above, name, hplace⟩ := read_eq_ok h
  obtain ⟨hposition, hfound, -⟩ := place_eq_ok hplace
  rw [← hposition]
  exact hfound

theorem copy_eq_ok (h : d.copy source target = .ok d') :
    ∃ content, d.read source = .ok content ∧ d.write target content = .ok d' := by
  rw [copy] at h
  split at h
  · next above name content hx => exact ⟨content, by rw [read, hx], h⟩
  · cases h
  · cases h
  · cases h

theorem position?_eq_some (h : d.position? path = some p) :
    p = path.positionFrom d.working ∧ d.find? p ≠ none := by
  rw [position?] at h
  split at h
  · next position hx =>
      cases h
      obtain ⟨hposition, hfound, -⟩ := place_eq_ok hx
      exact ⟨hposition, by rw [show d.find? p = _ from hfound]; exact Option.some_ne_none _⟩
  · next above name content hx =>
      cases h
      obtain ⟨hposition, hfound, -⟩ := place_eq_ok hx
      exact ⟨hposition, by
        rw [show d.find? (above ++ [name]) = _ from hfound]
        exact Option.some_ne_none _⟩
  · cases h

/-- What is found at a position is taken away from the folder it is in. -/
theorem replaces_eraseLast (h : d.find? p ≠ none) (ne : p ≠ []) :
    Replaces p none d (d.change p.dropLast (Folder.erase (p.getLast?.getD ""))) := by
  have hlast : p.getLast?.getD "" = p.getLast ne := by
    rw [List.getLast?_eq_some_getLast ne, Option.getD_some]
  have habove : d.find? p.dropLast = some .folder := by
    apply find?_eq_folder_of_below (List.dropLast_prefix p) _ h
    intro e
    have hlen := congrArg List.length e
    rw [List.length_dropLast] at hlen
    exact ne (List.eq_nil_of_length_eq_zero (by omega))
  have hreplaces := replaces_erase habove (p.getLast ne)
  rwa [List.dropLast_concat_getLast ne, ← hlast] at hreplaces

/-- A folder is taken away by a path that ends in a name. -/
theorem exists_removeAll (hplace : d.place path = .ok (.folder p)) (hname : endsInName path = true)
    (ne : p ≠ []) : ∃ e, d.removeAll path = (e, .ok ()) ∧ Replaces p none d e := by
  have hfound : d.find? p = some .folder := (place_eq_ok hplace).2.1
  rw [removeAll, hplace]
  dsimp only
  rw [hname, if_pos (by simpa using ne)]
  exact ⟨_, rfl, replaces_eraseLast (by rw [hfound]; exact Option.some_ne_none _) ne⟩

/-- What emptying a folder and taking it away changes. -/
theorem removeAll_cases (d : Disk) (path : Path) :
    (∃ p, d.place path = .ok (.folder p) ∧ (d.removeAll path).2 = .ok () ∧
      Replaces p none d (d.removeAll path).1) ∨
    (∃ p r, d.place path = .ok (.folder p) ∧ (d.removeAll path).2 = .error r ∧
      Replaces p (some (.folder .nil)) d (d.removeAll path).1) ∨
    (∃ r, d.removeAll path = (d, .error r)) := by
  rw [removeAll]
  split
  · next p hx =>
      have hfound : d.find? p = some .folder := (place_eq_ok hx).2.1
      split
      · next hname =>
          rw [Bool.and_eq_true] at hname
          have hp : p ≠ [] := by simpa using hname.2
          exact Or.inl ⟨p, hx, rfl,
            replaces_eraseLast (by rw [hfound]; exact Option.some_ne_none _) hp⟩
      · exact Or.inr (Or.inl ⟨p, _, hx, rfl, replaces_nil hfound⟩)
  · exact Or.inr (Or.inr ⟨_, rfl⟩)
  · exact Or.inr (Or.inr ⟨_, rfl⟩)
  · exact Or.inr (Or.inr ⟨_, rfl⟩)

theorem removeAll_eq_ok (h : d.removeAll path = (d', .ok ())) :
    Replaces (path.positionFrom d.working) none d d' := by
  rcases d.removeAll_cases path with ⟨p, hp, -, hr⟩ | ⟨p, r, -, hr, -⟩ | ⟨r, hr⟩
  · have hposition : p = path.positionFrom d.working := (place_eq_ok hp).1
    rwa [h, hposition] at hr
  · rw [h] at hr
    cases hr
  · rw [h] at hr
    cases hr

theorem Replaces.find?_of_not_prefix {v : Option Folder.Entry} (h : Replaces p v d d')
    (hq : ¬ p <+: q) : d'.find? q = d.find? q := by
  rw [h.find?_eq, if_neg hq]

theorem Replaces.find?_self {v : Option Folder.Entry} (h : Replaces p v d d') :
    d'.find? p = v.bind fun e => e.find? [] := by
  rw [h.find?_eq, if_pos List.prefix_rfl, List.drop_length]

/-- Taking a folder away leaves the rest of the disk, and of the folder at most itself. -/
theorem find?_removeAll (d : Disk) (path : Path) (q : List String) :
    (d.removeAll path).1.find? q = d.find? q ∨ path.positionFrom d.working <+: q ∧
      ((d.removeAll path).1.find? q = none ∨
        q = path.positionFrom d.working ∧ (d.removeAll path).1.find? q = some .folder) := by
  rcases d.removeAll_cases path with ⟨p, hp, -, hr⟩ | ⟨p, r, hp, -, hr⟩ | ⟨r, hr⟩
  · rw [show p = path.positionFrom d.working from (place_eq_ok hp).1] at hr
    by_cases hq : path.positionFrom d.working <+: q
    · refine Or.inr ⟨hq, Or.inl ?_⟩
      rw [hr.find?_eq, if_pos hq]
      rfl
    · exact Or.inl (hr.find?_of_not_prefix hq)
  · rw [show p = path.positionFrom d.working from (place_eq_ok hp).1] at hr
    by_cases hq : path.positionFrom d.working <+: q
    · refine Or.inr ⟨hq, ?_⟩
      rw [hr.find?_eq, if_pos hq]
      obtain ⟨rest, rfl⟩ := hq
      rw [List.drop_left]
      cases rest with
      | nil => exact Or.inr ⟨List.append_nil _, rfl⟩
      | cons name rest => exact Or.inl rfl
    · exact Or.inl (hr.find?_of_not_prefix hq)
  · exact Or.inl (by rw [hr])

/-- What is put where there was no folder, with nothing in it, changes nothing elsewhere. -/
theorem Replaces.find?_of_ne {e : Folder.Entry} (h : Replaces p (some e) d d')
    (bare : ∀ rest, rest ≠ [] → e.find? rest = none) (free : d.find? p ≠ some .folder) (hq : q ≠ p) :
    d'.find? q = d.find? q := by
  by_cases hpre : p <+: q
  · rw [find?_eq_none_of_below hpre hq.symm free, h.find?_eq, if_pos hpre]
    obtain ⟨rest, rfl⟩ := hpre
    rw [List.drop_left, Option.bind_some]
    exact bare rest fun hrest => hq (by rw [hrest, List.append_nil])
  · exact h.find?_of_not_prefix hpre

/-- A file that is written is found at its position, and elsewhere nothing changes. -/
theorem find?_of_write (h : d.write path content = .ok d') (q : List String) :
    d'.find? q = if q = path.positionFrom d.working then some (.file content) else d.find? q := by
  have hr := write_eq_ok h
  split
  · next hq =>
      rw [hq, hr.find?_self]
      rfl
  · next hq =>
      exact hr.find?_of_ne (fun _ hrest => if_neg hrest) (find?_ne_folder_of_write rfl h) hq

/-- A copy of a file onto itself changes nothing. -/
theorem find?_of_copy_self (h : d.copy path path = .ok d') : d'.find? q = d.find? q := by
  obtain ⟨content, hread, hwrite⟩ := copy_eq_ok h
  rw [find?_of_write hwrite]
  split
  · next hq => rw [hq, find?_of_read hread]
  · rfl

/-- A file that is moved is gone from where it was and found where it was moved to. -/
theorem rename_eq_ok (h : d.rename source target = .ok d') :
    ∃ content mid, d.find? (source.positionFrom d.working) = some (.file content) ∧
      endsInName target = true ∧
      Replaces (source.positionFrom d.working) none d mid ∧
      Replaces (target.positionFrom d.working) (some (.file content)) mid d' := by
  rw [rename] at h
  split at h
  · next above name content hx =>
      obtain ⟨hpos, hfound, habove⟩ := place_eq_ok hx
      have hpos : above ++ [name] = source.positionFrom d.working := hpos
      have hfound : d.find? (above ++ [name]) = some (.file content) := hfound
      have hmid : Replaces (above ++ [name]) none d (d.change above (Folder.erase name)) :=
        replaces_erase habove name
      have hends : endsInName target = true := by
        cases hends : endsInName target with
        | true => rfl
        | false =>
            rw [hends] at h
            cases h
      rw [hends, Bool.not_true, if_neg Bool.false_ne_true] at h
      -- the folder of the target is found where nothing is taken away
      have hput : ∀ {y : Place} {above' : List String} {name' : String}, d.place target = .ok y →
          y.position = above' ++ [name'] → y.above = above' →
          Replaces (target.positionFrom d.working) (some (.file content))
            (d.change above (Folder.erase name))
            ((d.change above (Folder.erase name)).change above' (Folder.put name' (.file content))) := by
        intro y above' name' hy hyp hya
        obtain ⟨hpos', -, habove'⟩ := place_eq_ok hy
        rw [← hpos', hyp]
        apply replaces_put
        rw [hya] at habove'
        rw [hmid.find?_of_not_prefix (not_prefix_of_folder (by rw [hfound]; nofun) habove'), habove']
      refine ⟨content, _, hpos ▸ hfound, hends, hpos ▸ hmid, ?_⟩
      split at h
      · next above' name' hy =>
          cases h
          exact hput hy rfl rfl
      · next above' name' old hy =>
          cases h
          exact hput hy rfl rfl
      · cases h
      · cases h
      · cases h
  · cases h
  · cases h
  · cases h

/-! ### Folders made on the way -/

/-- The second disk is the first one with new folders, at positions of some kind, where nothing was
found. -/
structure Makes (kind : List String → Prop) (d d' : Disk) : Prop where
  working : d'.working = d.working
  find?_or : ∀ q, d'.find? q = d.find? q ∨
    d.find? q = none ∧ d'.find? q = some .folder ∧ kind q

theorem Makes.refl (kind : List String → Prop) (d : Disk) : Makes kind d d :=
  ⟨rfl, fun _ => Or.inl rfl⟩

theorem Makes.trans {kind : List String → Prop} (h : Makes kind d e) (h' : Makes kind e d') :
    Makes kind d d' := by
  refine ⟨h'.working.trans h.working, ?_⟩
  intro q
  rcases h.find?_or q with hq | ⟨hq, he, hk⟩
  · rw [← hq]
    exact h'.find?_or q
  · rcases h'.find?_or q with hq' | ⟨hq', -, -⟩
    · exact Or.inr ⟨hq, hq'.trans he, hk⟩
    · rw [he] at hq'
      cases hq'

theorem Makes.mono {kind kind' : List String → Prop} (h : Makes kind d d')
    (hk : ∀ q, kind q → kind' q) : Makes kind' d d' :=
  ⟨h.working, fun q => (h.find?_or q).imp_right fun ⟨hq, hq', hkq⟩ => ⟨hq, hq', hk q hkq⟩⟩

theorem Makes.grows {kind : List String → Prop} (h : Makes kind d d') : Grows d d' := by
  refine ⟨h.working, ?_⟩
  intro q v hv
  rcases h.find?_or q with hq | ⟨hq, -, -⟩
  · rw [hq, hv]
  · rw [hv] at hq
    cases hq

/-- Making folders neither makes nor changes a file. -/
theorem Makes.find?_eq_file_iff {kind : List String → Prop} (h : Makes kind d d') :
    d'.find? q = some (.file content) ↔ d.find? q = some (.file content) := by
  rcases h.find?_or q with hq | ⟨hq, hq', -⟩
  · rw [hq]
  · rw [hq, hq']
    exact ⟨nofun, nofun⟩

theorem makes_of_make {kind : List String → Prop} (h : d.make path = .ok d')
    (hk : kind (path.positionFrom d.working)) : Makes kind d d' := by
  obtain ⟨hr, hnone⟩ := make_eq_ok h
  refine ⟨hr.working, ?_⟩
  intro q
  by_cases hq : q = path.positionFrom d.working
  · subst hq
    exact Or.inr ⟨hnone, hr.find?_self, hk⟩
  · left
    refine hr.find?_of_ne (fun rest hrest => ?_) (by rw [hnone]; nofun) hq
    cases rest with
    | nil => exact absurd rfl hrest
    | cons name rest => rfl

theorem makes_makeNearest {kind : List String → Prop} (d : Disk) (paths : List Path)
    (hk : ∀ a ∈ paths, kind (a.positionFrom d.working)) :
    Makes kind d (d.makeNearest paths).1 ∧ ∀ a ∈ (d.makeNearest paths).2.1, a ∈ paths := by
  induction paths with
  | nil => exact ⟨.refl kind d, fun _ h => h⟩
  | cons path above ih =>
      rw [makeNearest]
      split
      · exact ⟨.refl kind d, nofun⟩
      · split
        · next d' hmake => exact ⟨makes_of_make hmake (hk path List.mem_cons_self), nofun⟩
        · obtain ⟨hmakes, hpending⟩ := ih fun a ha => hk a (List.mem_cons_of_mem _ ha)
          refine ⟨hmakes, ?_⟩
          intro a ha
          rcases List.mem_cons.1 ha with rfl | ha
          · exact List.mem_cons_self
          · exact List.mem_cons_of_mem _ (hpending a ha)
        · split
          · exact ⟨.refl kind d, nofun⟩
          · exact ⟨.refl kind d, nofun⟩
        · exact ⟨.refl kind d, nofun⟩

theorem makes_makeEach {kind : List String → Prop} (d : Disk) (paths : List Path)
    (hk : ∀ a ∈ paths, kind (a.positionFrom d.working)) : Makes kind d (d.makeEach paths).1 := by
  induction paths generalizing d with
  | nil => exact .refl kind d
  | cons path rest ih =>
      have hrest : ∀ a ∈ rest, kind (a.positionFrom d.working) :=
        fun a ha => hk a (List.mem_cons_of_mem _ ha)
      rw [makeEach]
      split
      · next d' hmake =>
          have hmakes := makes_of_make hmake (hk path List.mem_cons_self)
          exact hmakes.trans (ih d' (hmakes.working.symm ▸ hrest))
      · split
        · exact ih d hrest
        · exact .refl kind d

/-- Making a folder with those above it makes folders on the way of its path. -/
theorem makes_makeAll (d : Disk) (path : Path) :
    Makes (path.Passes d.working) d (d.makeAll path).1 := by
  have hk : ∀ a ∈ path.ancestors, path.Passes d.working (a.positionFrom d.working) :=
    fun a ha => Path.passes_of_mem_ancestors ha d.working
  rw [makeAll]
  split
  · exact .refl _ d
  · obtain ⟨hmakes, hpending⟩ := makes_makeNearest d path.ancestors hk
    split
    · next d' pending hnearest =>
        rw [hnearest] at hmakes hpending
        refine hmakes.trans ?_
        apply makes_makeEach
        intro a ha
        rw [hmakes.working]
        exact hk a (hpending a (List.mem_reverse.1 ha))
    · next d' pending r hnearest =>
        rw [hnearest] at hmakes
        exact hmakes

theorem makeAll_of_isFolder (h : d.isFolder path = true) : d.makeAll path = (d, .ok ()) := by
  have hmake : d.make path = .error .present := by
    rw [isFolder] at h
    rw [make]
    split at h
    · next p hx => rw [hx]
    · cases h
  rw [makeAll]
  split
  · rfl
  · next hne =>
      rw [Path.ancestors, makeNearest, if_neg hne, hmake]
      dsimp only
      rw [if_pos h]
      rfl

/-- Where a name is free, a folder is reached once it is made. -/
theorem Grows.follow_free {above : List String} {name : String} {only : Bool} (h : Grows d d')
    (made : d'.find? (above ++ [name]) = some .folder) {segments : List String}
    (hp : d.follow p segments = .ok (.free above name only)) :
    d'.follow p segments = .ok (.folder (above ++ [name])) := by
  induction segments generalizing p with
  | nil => cases hp
  | cons s rest ih =>
      by_cases hidle : Path.isIdle s = true
      · rw [follow_idle hidle] at hp ⊢
        exact ih hp
      by_cases hs : s = ".."
      · subst hs
        rw [follow_up] at hp ⊢
        exact ih hp
      have hidle : Path.isIdle s = false := Bool.eq_false_iff.2 hidle
      rw [follow_name hidle hs] at hp ⊢
      split at hp
      · cases hp
      · next hlen =>
          rw [if_neg hlen]
          split at hp
          · next hf =>
              rw [h.find? _ _ hf]
              exact ih hp
          · split at hp <;> cases hp
          · split at hp
            · next hr =>
                cases hp
                rw [made]
                -- only empty segments follow, and they stay in the folder
                have stay : ∀ {rest : List String} (q : List String),
                    rest.all (·.isEmpty) = true → d'.follow q rest = .ok (.folder q) := by
                  intro rest q hr
                  induction rest with
                  | nil => rfl
                  | cons s rest ih =>
                      rw [List.all_cons, Bool.and_eq_true] at hr
                      obtain rfl : s = "" := by simpa using hr.1
                      rw [follow_idle rfl]
                      exact ih hr.2
                exact stay _ hr
            · cases hp

theorem grows_of_make (h : d.make path = .ok d') : Grows d d' := by
  have hmakes : Makes (fun _ => True) d d' := makes_of_make h trivial
  exact hmakes.grows

theorem isFolder_of_make (h : d.make path = .ok d') : d'.isFolder path = true := by
  obtain ⟨hr, -⟩ := make_eq_ok h
  have hgrows := grows_of_make h
  have hmade := hr.find?_self
  rw [make] at h
  split at h
  · next above name only hx =>
      obtain ⟨base, hb, hfollow⟩ := exists_base_of_place hx
      rw [← (place_eq_ok hx).1] at hmade
      have hplace : d'.place path = .ok (.folder (above ++ [name])) := by
        rw [place_eq (isSound_of_place hx), hgrows.base? hb]
        exact hgrows.follow_free hmade hfollow
      rw [isFolder, hplace]
  · cases h
  · cases h

theorem isFolder_of_makeEach {paths : List Path}
    (h : d.makeEach (paths ++ [path]) = (d', .ok ())) : d'.isFolder path = true := by
  induction paths generalizing d with
  | nil =>
      rw [List.nil_append, makeEach] at h
      split at h
      · next hmake =>
          cases h
          exact isFolder_of_make hmake
      · split at h
        · next hp =>
            cases h
            rw [Bool.and_eq_true] at hp
            exact hp.2
        · cases h
  | cons first rest ih =>
      rw [List.cons_append, makeEach] at h
      split at h
      · exact ih h
      · split at h
        · exact ih h
        · cases h

/-- Where a folder was made with those above it, the path leads to a folder. -/
theorem isFolder_of_makeAll (h : d.makeAll path = (d', .ok ())) (ne : path.text.isEmpty = false)
    (parent : path.parent?.isNone = false) : d'.isFolder path = true := by
  have hsome : ¬ (path.text.isEmpty || path.parent?.isNone) = true := by
    rw [ne, parent]
    exact Bool.false_ne_true
  rw [makeAll, if_neg hsome, Path.ancestors, makeNearest, if_neg hsome] at h
  split at h
  · next d₁ pending hnearest =>
      split at hnearest
      · next hmake =>
          cases hnearest
          cases h
          exact isFolder_of_make hmake
      · obtain ⟨-, hpending⟩ := Prod.mk.inj hnearest
        obtain ⟨rfl, -⟩ := Prod.mk.inj hpending
        rw [List.reverse_cons] at h
        exact isFolder_of_makeEach h
      · split at hnearest
        · next hp =>
            cases hnearest
            cases h
            exact hp
        · cases hnearest
      · cases hnearest
  · cases h

/-- A folder that has a parent is there once it was made with those above it. -/
theorem exists_place_of_makeAll (h : d.makeAll path = (d', .ok ())) (above : path.parent? ≠ none) :
    ∃ p, d'.place path = .ok (.folder p) := by
  have hne : path.text.isEmpty = false := by
    cases he : path.text.isEmpty with
    | false => rfl
    | true =>
        have htext : path = ⟨""⟩ := by
          rw [String.isEmpty_iff] at he
          cases path
          cases he
          rfl
        rw [htext] at above
        exact absurd rfl above
  have hparent : path.parent?.isNone = false := by
    rw [Option.isNone_eq_false_iff]
    exact Option.isSome_iff_ne_none.2 above
  have hfolder := isFolder_of_makeAll h hne hparent
  rw [isFolder] at hfolder
  split at hfolder
  · next p hp => exact ⟨p, hp⟩
  · cases hfolder

/-! ### Changes below a position -/

/-- All that differs on the second disk is strictly below a position. -/
structure ChangesBelow (p : List String) (d d' : Disk) : Prop where
  working : d'.working = d.working
  find?_eq : ∀ q, ¬ (p <+: q ∧ q ≠ p) → d'.find? q = d.find? q

theorem ChangesBelow.refl (p : List String) (d : Disk) : ChangesBelow p d d :=
  ⟨rfl, fun _ _ => rfl⟩

theorem ChangesBelow.trans (h : ChangesBelow p d e) (h' : ChangesBelow p e d') :
    ChangesBelow p d d' :=
  ⟨h'.working.trans h.working, fun q hq => (h'.find?_eq q hq).trans (h.find?_eq q hq)⟩

theorem Replaces.changesBelow {v : Option Folder.Entry} (h : Replaces q v d d') (hp : p <+: q)
    (ne : q ≠ p) : ChangesBelow p d d' := by
  refine ⟨h.working, ?_⟩
  intro r hr
  apply h.find?_of_not_prefix
  intro hqr
  refine hr ⟨hp.trans hqr, ?_⟩
  rintro rfl
  exact ne (hqr.eq_of_length (Nat.le_antisymm hqr.length_le hp.length_le))

theorem Makes.changesBelow {kind : List String → Prop} (h : Makes kind d d')
    (hk : ∀ q, kind q → d.find? q = none → p <+: q ∧ q ≠ p) : ChangesBelow p d d' := by
  refine ⟨h.working, ?_⟩
  intro q hq
  rcases h.find?_or q with hq' | ⟨hnone, -, hkq⟩
  · exact hq'
  · exact absurd (hk q hkq hnone) hq

/-- A disk on which nothing is found below a position only grows by changes below it. -/
theorem ChangesBelow.grows (h : ChangesBelow p d d')
    (empty : ∀ q, p <+: q → q ≠ p → d.find? q = none) : Grows d d' := by
  refine ⟨h.working, ?_⟩
  intro q v hv
  rw [h.find?_eq q, hv]
  rintro ⟨hp, hne⟩
  rw [empty q hp hne] at hv
  cases hv

end GuidedLab.Disk
