import Mathlib.Data.List.Basic
import GuidedLab.Proofs.Run.Folders
import GuidedLab.Proofs.Text.Padded

/-!
# Names in the order of time

The parts of a stamp come in falling order and each in one width, so for years of four digits the order of
names is the order of the moments in them, whatever seeds come after (`Run.nameAt_lt`). A name is also read
back: as the stamp has one length, the seed is what comes after it and one more character, even if it looks
like a stamp or begins with the line that sets it off. Only a line feed in the seed keeps a name from being
read (`Run.ofName_nameAt`).

Runs are listed by their names. So where all runs are named by their time, they are listed by the time they
were started at, the latest first (`Run.names_carry_time`).
-/

namespace GuidedLab

open Text (padded)

namespace Moment

variable {m n : Moment}

/-- The parts of a moment, the greatest first. -/
def parts (m : Moment) : List Int := [m.year, m.month, m.day, m.hour, m.minute, m.second]

/-- One moment comes before another: it is less in the greatest part in which they differ. -/
def Before (m n : Moment) : Prop := m.parts < n.parts

instance (m n : Moment) : Decidable (m.Before n) := inferInstanceAs (Decidable (m.parts < n.parts))

/-- A moment of the calendar whose year has four digits. -/
structure IsDated (m : Moment) : Prop where
  valid : m.isValid = true
  first : 0 ≤ m.year
  last : m.year ≤ 9999

/-- The width of each part but the year. -/
def HasTwoDigits (k : Nat) : Prop := (Nat.toDigits 10 k).length ≤ 2

theorem daysIn_le (year : Int) (month : Nat) : daysIn year month ≤ 31 := by
  rw [daysIn.eq_def]
  split
  · split <;> decide
  all_goals decide

/-- A month with days is one of twelve. -/
theorem month_le_of_daysIn {year : Int} {month : Nat} (h : 0 < daysIn year month) : month ≤ 12 := by
  rw [daysIn.eq_def] at h
  split at h <;> omega

/-- No part but the year of a moment of the calendar has more than two digits. -/
theorem hasTwoDigits_of_isValid (h : m.isValid = true) :
    HasTwoDigits m.month ∧ HasTwoDigits m.day ∧ HasTwoDigits m.hour ∧ HasTwoDigits m.minute ∧
      HasTwoDigits m.second := by
  simp only [isValid, Bool.and_eq_true, decide_eq_true_eq] at h
  obtain ⟨⟨⟨⟨hfirst, hlast⟩, hhour⟩, hminute⟩, hsecond⟩ := h
  have hmonth := month_le_of_daysIn (Nat.lt_of_lt_of_le hfirst hlast)
  have hday := Nat.le_trans hlast (daysIn_le m.year m.month)
  have key : ∀ {k : Nat}, k < 100 → HasTwoDigits k := fun hk =>
    Text.length_toDigits_of_lt_hundred hk
  exact ⟨key (by omega), key (by omega), key (by omega), key (by omega), key (by omega)⟩

theorem IsDated.length_year (h : m.IsDated) : (Nat.toDigits 10 m.year.toNat).length ≤ 4 := by
  have := h.last
  exact Text.length_toDigits_of_lt_tenThousand (by omega)

theorem toList_stamp (h : m.IsDated) :
    m.stamp.toList = (padded 4 m.year.toNat).toList ++ '-' :: ((padded 2 m.month).toList ++ '-' ::
      ((padded 2 m.day).toList ++ '_' :: ((padded 2 m.hour).toList ++ '-' ::
        ((padded 2 m.minute).toList ++ '-' :: (padded 2 m.second).toList)))) := by
  have hdash : "-".toList = ['-'] := rfl
  have hline : "_".toList = ['_'] := rfl
  rw [stamp, joined, yearText, if_pos ⟨h.first, h.last⟩]
  simp only [String.toList_append, hdash, hline, List.append_assoc, List.cons_append,
    List.nil_append]

/-- What follows numbers and a mark decides between them if they are the same. -/
theorem padded_mark_lt {width j k : Nat} {s t : List Char} (pos : 0 < width)
    (hj : (Nat.toDigits 10 j).length ≤ width) (hk : (Nat.toDigits 10 k).length ≤ width) (mark : Char)
    (h : j < k ∨ j = k ∧ s < t) :
    (padded width j).toList ++ mark :: s < (padded width k).toList ++ mark :: t := by
  rcases h with h | ⟨rfl, h⟩
  · exact Text.padded_append_lt pos hj hk h _ _
  · exact List.append_left_lt (List.cons_lt_cons_iff.2 (Or.inr ⟨rfl, h⟩))

/-- Stamps are in the order of the moments, whatever comes after them. -/
theorem stamp_append_lt (hm : m.IsDated) (hn : n.IsDated) (h : m.Before n) (s t : List Char) :
    m.stamp.toList ++ s < n.stamp.toList ++ t := by
  obtain ⟨hmonth, hday, hhour, hminute, hsecond⟩ := hasTwoDigits_of_isValid hm.valid
  obtain ⟨hmonth', hday', hhour', hminute', hsecond'⟩ := hasTwoDigits_of_isValid hn.valid
  have hfirst := hm.first
  have hfirst' := hn.first
  simp only [Before, parts, List.cons_lt_cons_iff, List.lt_irrefl, and_false, or_false] at h
  rw [toList_stamp hm, toList_stamp hn]
  simp only [List.append_assoc, List.cons_append]
  -- part by part: either this one decides, or it is the same in both
  refine padded_mark_lt (by omega) hm.length_year hn.length_year _ ?_
  refine h.imp (fun h => by omega) fun ⟨h, rest⟩ => ⟨by omega, ?_⟩
  refine padded_mark_lt (by omega) hmonth hmonth' _ ?_
  refine rest.imp (fun h => by omega) fun ⟨h, rest⟩ => ⟨by omega, ?_⟩
  refine padded_mark_lt (by omega) hday hday' _ ?_
  refine rest.imp (fun h => by omega) fun ⟨h, rest⟩ => ⟨by omega, ?_⟩
  refine padded_mark_lt (by omega) hhour hhour' _ ?_
  refine rest.imp (fun h => by omega) fun ⟨h, rest⟩ => ⟨by omega, ?_⟩
  refine padded_mark_lt (by omega) hminute hminute' _ ?_
  refine rest.imp (fun h => by omega) fun ⟨h, rest⟩ => ⟨by omega, ?_⟩
  exact Text.padded_append_lt (by omega) hsecond hsecond' (by omega) _ _

/-- A moment is read back from its stamp. -/
theorem ofStamp?_stamp (h : m.IsDated) : ofStamp? m.stamp.toList = some m := by
  obtain ⟨hmonth, hday, hhour, hminute, hsecond⟩ := hasTwoDigits_of_isValid h.valid
  have two : ∀ {k : Nat}, HasTwoDigits k → ∃ a b, (padded 2 k).toList = [a, b] ∧
      Text.natural? [a, b] = some k := by
    intro k hk
    obtain ⟨a, b, hab⟩ := List.length_eq_two.1 (Text.length_padded hk)
    exact ⟨a, b, hab, hab ▸ Text.natural?_padded 2 k⟩
  have hyear := Text.natural?_padded 4 m.year.toNat
  have hlength := Text.length_padded h.length_year
  obtain ⟨y, rest, hy⟩ : ∃ a as, (padded 4 m.year.toNat).toList = a :: as :=
    List.exists_cons_of_length_eq_add_one hlength
  rw [hy, List.length_cons, Nat.add_right_cancel_iff, List.length_eq_three] at hlength
  obtain ⟨y', y'', y''', rfl⟩ := hlength
  obtain ⟨a, a', ha, hmonth⟩ := two hmonth
  obtain ⟨b, b', hb, hday⟩ := two hday
  obtain ⟨c, c', hc, hhour⟩ := two hhour
  obtain ⟨d, d', hd, hminute⟩ := two hminute
  obtain ⟨e, e', he, hsecond⟩ := two hsecond
  have hwhole : (⟨(m.year.toNat : Nat), m.month, m.day, m.hour, m.minute, m.second⟩ : Moment) = m := by
    rw [Int.toNat_of_nonneg h.first]
  rw [hy] at hyear
  rw [toList_stamp h, hy, ha, hb, hc, hd, he]
  simp only [List.cons_append, List.nil_append, ofStamp?, hyear, hmonth, hday, hhour, hminute, hsecond,
    Option.bind_eq_bind, Option.bind_some, hwhole, h.valid, if_true]

end Moment

namespace Run

open Moment (HasTwoDigits hasTwoDigits_of_isValid)

variable {m n : Moment}

/-! ### Shapes -/

theorem length_eq_of_hasShape {shape cs : List Char} (h : hasShape shape cs = true) :
    cs.length = shape.length := by
  induction shape generalizing cs with
  | nil =>
      cases cs with
      | nil => rfl
      | cons c cs => cases h
  | cons s shape ih =>
      cases cs with
      | nil => cases h
      | cons c cs =>
          rw [hasShape, Bool.and_eq_true] at h
          rw [List.length_cons, List.length_cons, ih h.2]

theorem hasShape_append {shape shape' cs ds : List Char} (h : hasShape shape cs = true)
    (h' : hasShape shape' ds = true) : hasShape (shape ++ shape') (cs ++ ds) = true := by
  induction shape generalizing cs with
  | nil =>
      cases cs with
      | nil => exact h'
      | cons c cs => cases h
  | cons s shape ih =>
      cases cs with
      | nil => cases h
      | cons c cs =>
          rw [hasShape, Bool.and_eq_true] at h
          rw [List.cons_append, List.cons_append, hasShape, h.1, ih h.2]
          rfl

theorem hasShape_mark {mark : Char} {shape cs : List Char} (other : mark ≠ '0')
    (h : hasShape shape cs = true) : hasShape (mark :: shape) (mark :: cs) = true := by
  rw [hasShape, if_neg other, h, decide_eq_true rfl]
  rfl

theorem isDecimalDigit_digitChar : ∀ k < 10, Text.isDecimalDigit k.digitChar = true := by
  decide

/-- Digits have the shape of as many digits. -/
theorem hasShape_padded {width k : Nat} (h : (Nat.toDigits 10 k).length ≤ width) :
    hasShape (List.replicate width '0') (padded width k).toList = true := by
  have digits : ∀ cs : List Char, (∀ c ∈ cs, Text.isDecimalDigit c = true) →
      hasShape (List.replicate cs.length '0') cs = true := by
    intro cs hcs
    induction cs with
    | nil => rfl
    | cons c cs ih =>
        rw [List.length_cons, List.replicate_succ, hasShape, if_pos rfl, hcs c List.mem_cons_self,
          ih fun d hd => hcs d (List.mem_cons_of_mem _ hd)]
        rfl
  have hlength := Text.length_padded h
  have hshape := digits (padded width k).toList fun c hc => by
    rw [Text.toList_padded, List.mem_append] at hc
    rcases hc with hc | hc
    · rw [List.eq_of_mem_replicate hc]
      rfl
    · obtain ⟨j, hj, rfl⟩ := Text.mem_toDigits (by omega) hc
      exact isDecimalDigit_digitChar j hj
  rwa [hlength] at hshape

/-- A stamp has the shape of stamps. -/
theorem hasShape_stamp (h : m.IsDated) : hasShape stampShape m.stamp.toList = true := by
  obtain ⟨hmonth, hday, hhour, hminute, hsecond⟩ := hasTwoDigits_of_isValid h.valid
  have hshape : stampShape = List.replicate 4 '0' ++ '-' :: (List.replicate 2 '0' ++ '-' ::
      (List.replicate 2 '0' ++ '_' :: (List.replicate 2 '0' ++ '-' ::
        (List.replicate 2 '0' ++ '-' :: List.replicate 2 '0')))) := rfl
  rw [hshape, Moment.toList_stamp h]
  refine hasShape_append (hasShape_padded h.length_year) (hasShape_mark (by decide) ?_)
  refine hasShape_append (hasShape_padded hmonth) (hasShape_mark (by decide) ?_)
  refine hasShape_append (hasShape_padded hday) (hasShape_mark (by decide) ?_)
  refine hasShape_append (hasShape_padded hhour) (hasShape_mark (by decide) ?_)
  exact hasShape_append (hasShape_padded hminute)
    (hasShape_mark (by decide) (hasShape_padded hsecond))

/-! ### Names -/

theorem toList_nameAt (m : Moment) (seed : String) :
    (nameAt m seed).toList = m.stamp.toList ++ if seed.isEmpty then [] else '_' :: seed.toList := by
  rw [nameAt]
  split
  · rw [List.append_nil]
  · rw [String.toList_append, String.toList_append, List.append_assoc]
    rfl

/-- Names are in the order of their moments, whatever their seeds. -/
theorem nameAt_lt (hm : m.IsDated) (hn : n.IsDated) (h : m.Before n) (seed seed' : String) :
    nameAt m seed < nameAt n seed' := by
  show (nameAt m seed).toList < (nameAt n seed').toList
  rw [toList_nameAt, toList_nameAt]
  exact Moment.stamp_append_lt hm hn h _ _

/-- A name is taken apart into its stamp and its seed, unless the seed has a line feed. -/
theorem split?_nameAt (h : m.IsDated) (seed : String) :
    split? (nameAt m seed) =
      if '\n' ∈ seed.toList then none
      else some (m.stamp.toList, if seed.isEmpty then none else some seed) := by
  have hshape := hasShape_stamp h
  have hlength := length_eq_of_hasShape hshape
  rw [split?, toList_nameAt, ← hlength, List.take_left, List.drop_left, if_pos hshape]
  cases hseed : seed.toList with
  | nil =>
      have hempty : seed.isEmpty = true := by
        rw [String.isEmpty_iff, ← String.toList_eq_nil_iff, hseed]
      rw [hempty]
      rfl
  | cons c cs =>
      have hfilled : seed.isEmpty = false := by
        rw [← Bool.not_eq_true, String.isEmpty_iff, ← String.toList_eq_nil_iff, hseed]
        exact List.cons_ne_nil c cs
      rw [hfilled]
      simp only [Bool.false_eq_true, if_false, List.contains_eq_mem, decide_eq_true_eq]
      rw [← hseed, String.ofList_toList]

/-- A name tells its moment and its seed, if there is no line feed in the seed. -/
theorem ofName_nameAt (h : m.IsDated) {seed : String} (one : '\n' ∉ seed.toList) :
    Entry.ofName (nameAt m seed) =
      ⟨nameAt m seed, some m, if seed.isEmpty then none else some seed⟩ := by
  rw [Entry.ofName, split?_nameAt h, if_neg one]
  dsimp only
  rw [Moment.ofStamp?_stamp h]

/-- A name tells no other moment than its own. -/
theorem eq_of_mem_started (h : m.IsDated) {seed : String}
    (told : (Entry.ofName (nameAt m seed)).started = some n) : n = m := by
  by_cases hline : '\n' ∈ seed.toList
  · rw [Entry.ofName, split?_nameAt h, if_pos hline] at told
    cases told
  · rw [ofName_nameAt h hline] at told
    exact (Option.some.inj told).symm

/-- Names of years of four digits sort by their moments, whatever their seeds. A seed without a line feed is
read back from the name together with the moment. Where all runs are named like that they are all listed, no
run before one that was started later. -/
theorem names_carry_time :
    (∀ m n : Moment, m.IsDated → n.IsDated → m.Before n → ∀ seed seed',
      Text.bytes (nameAt m seed) < Text.bytes (nameAt n seed')) ∧
    (∀ (m : Moment) (seed : String), m.IsDated → '\n' ∉ seed.toList →
      Entry.ofName (nameAt m seed) =
        ⟨nameAt m seed, some m, if seed.isEmpty then none else some seed⟩) ∧
    ∀ (runs : Path) (d : Disk) (names : List String), d.foldersIn runs = .ok names →
      (∀ name ∈ names, ∃ m seed, Moment.IsDated m ∧ name = nameAt m seed) →
        ∃ entries, (list runs).run d = (.ok entries, d) ∧ (entries.map Entry.name).Perm names ∧
          (∀ entry ∈ entries, entry = Entry.ofName entry.name) ∧
          entries.Pairwise fun a b =>
            (∀ m n, a.started = some m → b.started = some n → ¬ m.Before n) ∧
            ∀ m seed n seed', m.IsDated → n.IsDated → a.name = nameAt m seed →
              b.name = nameAt n seed' → ¬ m.Before n := by
  refine ⟨fun m n hm hn h seed seed' => Text.bytes_lt (nameAt_lt hm hn h seed seed'),
    fun m seed hm hline => ofName_nameAt hm hline, fun runs d names hnames hdated => ?_⟩
  have there : d.isThere runs = true := by
    rw [Disk.isThere, Disk.place_of_isFolder (Disk.isFolder_of_foldersIn hnames)]
  have hperm := List.mergeSort_perm names fun a b => decide (b ≤ a)
  refine ⟨_, run_list_of_foldersIn there hnames, ?_, ?_, ?_⟩
  · rw [map_name_map_ofName]
    exact hperm
  · intro entry hentry
    obtain ⟨name, -, rfl⟩ := List.mem_map.1 hentry
    rw [name_ofName]
  · -- a name that is listed first is not less, so its moment is not before
    have hmoments : ∀ {a b : String}, b ≤ a → ∀ m seed n seed', Moment.IsDated m → n.IsDated →
        a = nameAt m seed → b = nameAt n seed' → ¬ m.Before n := by
      rintro _ _ hle m seed n seed' hm hn rfl rfl hbefore
      exact Std.not_le.2 (nameAt_lt hm hn hbefore seed seed') hle
    rw [List.pairwise_map]
    refine (pairwise_mergeSort_names names).imp_of_mem fun {a b} ha hb hle => ⟨?_, ?_⟩
    · intro m n hm hn
      obtain ⟨m', seed, hdated', rfl⟩ := hdated a (hperm.mem_iff.1 ha)
      obtain ⟨n', seed', hdated'', rfl⟩ := hdated b (hperm.mem_iff.1 hb)
      rw [eq_of_mem_started hdated' hm, eq_of_mem_started hdated'' hn]
      exact hmoments hle _ _ _ _ hdated' hdated'' rfl rfl
    · rw [name_ofName, name_ofName]
      exact hmoments hle

/-- The last second of a leap day. -/
def leapDay : Moment := ⟨2012, 2, 29, 23, 59, 59⟩

/-- A morning in May. -/
def mayMorning : Moment := ⟨2014, 5, 1, 10, 15, 30⟩

/-- Two runs, one without a seed and one with a seed that begins with a line and looks like a stamp. -/
def dated : Disk :=
  ⟨.folder "runs" (.folder "2012-02-29_23-59-59" .nil
    (.folder "2014-05-01_10-15-30__2000-01-01_00-00-00" .nil .nil)) .nil, []⟩

theorem isDated_leapDay : leapDay.IsDated := ⟨by decide, by decide, by decide⟩

theorem isDated_mayMorning : mayMorning.IsDated := ⟨by decide, by decide, by decide⟩

theorem names_carry_time_leapDay :
    leapDay.Before mayMorning ∧
      Text.bytes (nameAt leapDay "z") < Text.bytes (nameAt mayMorning "") ∧
      Entry.ofName (nameAt mayMorning "_2000-01-01_00-00-00") =
        ⟨"2014-05-01_10-15-30__2000-01-01_00-00-00", some mayMorning,
          some "_2000-01-01_00-00-00"⟩ ∧
      ∃ entries, (list ⟨"runs"⟩).run dated = (.ok entries, dated) ∧ entries.length = 2 ∧
        entries.Pairwise fun a b =>
          ∀ m n, a.started = some m → b.started = some n → ¬ m.Before n := by
  obtain ⟨hsorts, hread, hlist⟩ := names_carry_time
  have before : leapDay.Before mayMorning := by decide
  obtain ⟨entries, hrun, hperm, -, hpairwise⟩ := hlist ⟨"runs"⟩ dated
    ["2012-02-29_23-59-59", "2014-05-01_10-15-30__2000-01-01_00-00-00"] (by rfl) fun name hname => by
      rcases List.mem_cons.1 hname with rfl | hname
      · exact ⟨leapDay, "", isDated_leapDay, by decide +kernel⟩
      · rw [List.mem_singleton.1 hname]
        exact ⟨mayMorning, "_2000-01-01_00-00-00", isDated_mayMorning, by decide +kernel⟩
  refine ⟨before, hsorts _ _ isDated_leapDay isDated_mayMorning before _ _, ?_, entries, hrun, ?_,
    hpairwise.imp And.left⟩
  · rw [hread mayMorning _ isDated_mayMorning (by decide)]
    decide +kernel
  · rw [← List.length_map Entry.name, hperm.length_eq]
    rfl

end Run

end GuidedLab
