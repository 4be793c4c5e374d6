/-!
# Archives

An archive keeps values under keys: truth values, 64-bit integers, texts and archives. Its entries
stand in strictly increasing order of their keys, at every depth, so two archives with the same
content are equal and are written the same way. The order is part of the type: `Value` is the raw
nested data, `Value.Ordered` says that every archive in it is in order, and an `Archive` is an
ordered list of entries with that proof. An `Item` is a value fit to be put into an archive.

The view of an archive is `get?`. Each operation has one equation through it: `get?_put_self`,
`get?_put_of_ne`, `get?_erase_self` and `get?_erase_of_ne`.
-/

namespace GuidedLab

/-- The raw content of an archive under one key. -/
inductive Archive.Value where
  | bool (b : Bool)
  | int (n : Int64)
  | text (s : String)
  | nested (entries : List (String × Archive.Value))

namespace Archive

/-- Raw entries: keys with their values. -/
abbrev Entries := List (String × Value)

mutual

/-- Every archive in the value is in order. -/
def Value.Ordered : Value → Prop
  | .nested entries => entries.Pairwise (fun a b => a.1 < b.1) ∧ AllOrdered entries
  | _ => True

/-- Every archive in the values is in order. -/
def AllOrdered : List (String × Value) → Prop
  | [] => True
  | (_, v) :: rest => v.Ordered ∧ AllOrdered rest

end

mutual

/-- Equality of values is decided part by part. -/
def Value.decEq : (v w : Value) → Decidable (v = w)
  | .bool a, .bool b => decidable_of_iff (a = b) (by simp)
  | .int a, .int b => decidable_of_iff (a = b) (by simp)
  | .text a, .text b => decidable_of_iff (a = b) (by simp)
  | .nested a, .nested b =>
    match entriesDecEq a b with
    | .isTrue h => .isTrue (h ▸ rfl)
    | .isFalse h => .isFalse fun e => h (Value.nested.inj e)
  | .bool _, .int _ => .isFalse nofun
  | .bool _, .text _ => .isFalse nofun
  | .bool _, .nested _ => .isFalse nofun
  | .int _, .bool _ => .isFalse nofun
  | .int _, .text _ => .isFalse nofun
  | .int _, .nested _ => .isFalse nofun
  | .text _, .bool _ => .isFalse nofun
  | .text _, .int _ => .isFalse nofun
  | .text _, .nested _ => .isFalse nofun
  | .nested _, .bool _ => .isFalse nofun
  | .nested _, .int _ => .isFalse nofun
  | .nested _, .text _ => .isFalse nofun

/-- Equality of entries is decided entry by entry. -/
def entriesDecEq : (a b : List (String × Value)) → Decidable (a = b)
  | [], [] => .isTrue rfl
  | [], _ :: _ => .isFalse nofun
  | _ :: _, [] => .isFalse nofun
  | (k, v) :: a, (l, w) :: b =>
    match decEq k l with
    | .isFalse h => .isFalse fun e => h (by cases e; rfl)
    | .isTrue hk =>
      match Value.decEq v w with
      | .isFalse h => .isFalse fun e => h (by cases e; rfl)
      | .isTrue hv =>
        match entriesDecEq a b with
        | .isFalse h => .isFalse fun e => h (by cases e; rfl)
        | .isTrue hs => .isTrue (by rw [hk, hv, hs])

end

instance : DecidableEq Value := Value.decEq

/-- A value in which every archive is in order. -/
abbrev Item := {v : Value // v.Ordered}

instance : Inhabited Item := ⟨⟨.bool false, trivial⟩⟩

/-- The first value under a key. -/
def lookup (key : String) : Entries → Option Value
  | [] => none
  | (k, v) :: rest => if k = key then some v else lookup key rest

/-- The entries with a value put under a key, at the place that keeps the order. -/
def insertEntry (key : String) (v : Value) : Entries → Entries
  | [] => [(key, v)]
  | (k, w) :: rest =>
    if key < k then (key, v) :: (k, w) :: rest
    else if key = k then (key, v) :: rest
    else (k, w) :: insertEntry key v rest

/-- The entries without a key. -/
def eraseEntry (key : String) (entries : Entries) : Entries :=
  entries.filter fun e => e.1 ≠ key

theorem mem_insertEntry {key : String} {v : Value} {entries : Entries} {e : String × Value}
    (h : e ∈ insertEntry key v entries) : e = (key, v) ∨ e ∈ entries := by
  induction entries with
  | nil => simpa [insertEntry] using h
  | cons f rest ih =>
    obtain ⟨k, w⟩ := f
    rw [insertEntry] at h
    split at h
    · simpa using h
    · split at h
      · rcases List.mem_cons.1 h with rfl | h
        · exact Or.inl rfl
        · exact Or.inr (List.mem_cons_of_mem _ h)
      · rcases List.mem_cons.1 h with rfl | h
        · exact Or.inr List.mem_cons_self
        · exact (ih h).imp_right (List.mem_cons_of_mem _)

theorem allOrdered_iff {entries : Entries} : AllOrdered entries ↔ ∀ e ∈ entries, e.2.Ordered := by
  induction entries with
  | nil => simp [AllOrdered]
  | cons e rest ih => obtain ⟨k, v⟩ := e; simp [AllOrdered, ih]

theorem pairwise_insertEntry {key : String} {v : Value} {entries : Entries}
    (h : entries.Pairwise fun a b => a.1 < b.1) :
    (insertEntry key v entries).Pairwise fun a b => a.1 < b.1 := by
  induction entries with
  | nil => simp [insertEntry]
  | cons e rest ih =>
    obtain ⟨k, w⟩ := e
    have hp := List.pairwise_cons.1 h
    rw [insertEntry]
    split
    · next hlt =>
      refine List.pairwise_cons.2 ⟨fun e he => ?_, h⟩
      rcases List.mem_cons.1 he with rfl | he
      · exact hlt
      · exact String.lt_trans hlt (hp.1 e he)
    · next hlt =>
      split
      · next heq => exact List.pairwise_cons.2 ⟨fun e he => heq ▸ hp.1 e he, hp.2⟩
      · next hne =>
        refine List.pairwise_cons.2 ⟨fun e he => ?_, ih hp.2⟩
        rcases mem_insertEntry he with rfl | he
        · show k < key
          grind
        · exact hp.1 e he

theorem ordered_insertEntry {key : String} {v : Value} {entries : Entries}
    (hv : v.Ordered) (h : (Value.nested entries).Ordered) :
    (Value.nested (insertEntry key v entries)).Ordered := by
  refine ⟨pairwise_insertEntry h.1, allOrdered_iff.2 fun e he => ?_⟩
  rcases mem_insertEntry he with rfl | he
  · exact hv
  · exact allOrdered_iff.1 h.2 e he

theorem ordered_eraseEntry {key : String} {entries : Entries}
    (h : (Value.nested entries).Ordered) : (Value.nested (eraseEntry key entries)).Ordered :=
  ⟨h.1.sublist List.filter_sublist,
    allOrdered_iff.2 fun e he => allOrdered_iff.1 h.2 e (List.mem_filter.1 he).1⟩

theorem ordered_of_lookup {key : String} {v : Value} {entries : Entries}
    (h : AllOrdered entries) (hv : lookup key entries = some v) : v.Ordered := by
  induction entries with
  | nil => cases hv
  | cons e rest ih =>
    obtain ⟨k, w⟩ := e
    rw [lookup] at hv
    split at hv
    · cases hv; exact h.1
    · exact ih h.2 hv

end Archive

/-- Values under keys, in the order of the keys at every depth. -/
structure Archive where
  entries : Archive.Entries
  ordered : (Archive.Value.nested entries).Ordered

namespace Archive

instance : DecidableEq Archive := fun a b =>
  decidable_of_iff (a.entries = b.entries) (by cases a; cases b; simp)

theorem ext {a b : Archive} (h : a.entries = b.entries) : a = b := by
  cases a; cases b; cases h; rfl

/-- The archive without entries. -/
def empty : Archive := ⟨[], by simp [Value.Ordered, AllOrdered]⟩

instance : Inhabited Archive := ⟨empty⟩

/-- The number of entries. -/
def size (a : Archive) : Nat := a.entries.length

/-- The keys in order. -/
def keys (a : Archive) : List String := a.entries.map Prod.fst

/-- The value under a key. -/
def get? (a : Archive) (key : String) : Option Value := lookup key a.entries

/-- Whether there is a value under a key. -/
def contains (a : Archive) (key : String) : Bool := (a.get? key).isSome

/-- The archive with a value put under a key, in place of what was there. -/
def put (a : Archive) (key : String) (item : Item) : Archive :=
  ⟨insertEntry key item.1 a.entries, ordered_insertEntry item.2 a.ordered⟩

/-- The archive without a key. -/
def erase (a : Archive) (key : String) : Archive :=
  ⟨eraseEntry key a.entries, ordered_eraseEntry a.ordered⟩

/-- A truth value as an item. -/
def Item.bool (b : Bool) : Item := ⟨.bool b, trivial⟩

/-- An integer as an item. -/
def Item.int (n : Int64) : Item := ⟨.int n, trivial⟩

/-- A text as an item. -/
def Item.text (s : String) : Item := ⟨.text s, trivial⟩

/-- An archive as an item. -/
def Item.nested (a : Archive) : Item := ⟨.nested a.entries, a.ordered⟩

/-- The archive with a truth value put under a key. -/
def putBool (a : Archive) (key : String) (b : Bool) : Archive := a.put key (.bool b)

/-- The archive with an integer put under a key. -/
def putInt (a : Archive) (key : String) (n : Int64) : Archive := a.put key (.int n)

/-- The archive with a text put under a key. -/
def putText (a : Archive) (key s : String) : Archive := a.put key (.text s)

/-- The archive with an archive put under a key. -/
def putNested (a : Archive) (key : String) (b : Archive) : Archive := a.put key (.nested b)

/-- The truth value under a key; a value of another kind counts as absent. -/
def bool? (a : Archive) (key : String) : Option Bool :=
  match a.get? key with
  | some (.bool b) => some b
  | _ => none

/-- The integer under a key; a value of another kind counts as absent. -/
def int? (a : Archive) (key : String) : Option Int64 :=
  match a.get? key with
  | some (.int n) => some n
  | _ => none

/-- The text under a key; a value of another kind counts as absent. -/
def text? (a : Archive) (key : String) : Option String :=
  match a.get? key with
  | some (.text s) => some s
  | _ => none

/-- The archive under a key; a value of another kind counts as absent. -/
def nested? (a : Archive) (key : String) : Option Archive :=
  match h : a.get? key with
  | some (.nested entries) => some ⟨entries, ordered_of_lookup a.ordered.2 h⟩
  | _ => none

/-- The archive changed below a row of keys: the last key gets the item, or is erased if there is
none. An archive that is missing on the way counts as empty and is put in place. -/
def edit (a : Archive) : List String → Option Item → Archive
  | [], _ => a
  | [key], some item => a.put key item
  | [key], none => a.erase key
  | key :: keys, item? => a.putNested key (((a.nested? key).getD empty).edit keys item?)

theorem lookup_insertEntry_self (key : String) (v : Value) (entries : Entries) :
    lookup key (insertEntry key v entries) = some v := by
  induction entries with
  | nil => simp [insertEntry, lookup]
  | cons e rest ih =>
    obtain ⟨k, w⟩ := e
    rw [insertEntry]
    split
    · simp [lookup]
    · split
      · simp [lookup]
      · next hne => rw [lookup, if_neg (Ne.symm hne), ih]

theorem lookup_insertEntry_of_ne {key other : String} (h : other ≠ key) (v : Value)
    (entries : Entries) : lookup other (insertEntry key v entries) = lookup other entries := by
  induction entries with
  | nil => simp [insertEntry, lookup, Ne.symm h]
  | cons e rest ih =>
    obtain ⟨k, w⟩ := e
    rw [insertEntry]
    split
    · rw [lookup, if_neg (Ne.symm h)]
    · split
      · next heq => rw [lookup, lookup, if_neg (Ne.symm h), if_neg (heq ▸ Ne.symm h)]
      · rw [lookup, lookup, ih]

theorem lookup_eraseEntry_self (key : String) (entries : Entries) :
    lookup key (eraseEntry key entries) = none := by
  induction entries with
  | nil => rfl
  | cons e rest ih =>
    obtain ⟨k, w⟩ := e
    by_cases h : k = key
    · simpa [eraseEntry, List.filter_cons, h] using ih
    · have : eraseEntry key ((k, w) :: rest) = (k, w) :: eraseEntry key rest := by
        simp [eraseEntry, h]
      rw [this, lookup, if_neg h, ih]

theorem lookup_eraseEntry_of_ne {key other : String} (h : other ≠ key) (entries : Entries) :
    lookup other (eraseEntry key entries) = lookup other entries := by
  induction entries with
  | nil => rfl
  | cons e rest ih =>
    obtain ⟨k, w⟩ := e
    by_cases hk : k = key
    · have : eraseEntry key ((k, w) :: rest) = eraseEntry key rest := by
        simp [eraseEntry, hk]
      rw [this, ih, lookup, if_neg (hk ▸ Ne.symm h)]
    · have : eraseEntry key ((k, w) :: rest) = (k, w) :: eraseEntry key rest := by
        simp [eraseEntry, hk]
      rw [this, lookup, lookup, ih]

@[simp] theorem get?_empty (key : String) : empty.get? key = none := rfl

@[simp] theorem get?_put_self (a : Archive) (key : String) (item : Item) :
    (a.put key item).get? key = some item.1 :=
  lookup_insertEntry_self key item.1 a.entries

theorem get?_put_of_ne (a : Archive) {key other : String} (h : other ≠ key) (item : Item) :
    (a.put key item).get? other = a.get? other :=
  lookup_insertEntry_of_ne h item.1 a.entries

@[simp] theorem get?_erase_self (a : Archive) (key : String) : (a.erase key).get? key = none :=
  lookup_eraseEntry_self key a.entries

theorem get?_erase_of_ne (a : Archive) {key other : String} (h : other ≠ key) :
    (a.erase key).get? other = a.get? other :=
  lookup_eraseEntry_of_ne h a.entries

@[simp] theorem int?_putInt_self (a : Archive) (key : String) (n : Int64) :
    (a.putInt key n).int? key = some n := by
  simp [int?, putInt, Item.int]

@[simp] theorem text?_putText_self (a : Archive) (key s : String) :
    (a.putText key s).text? key = some s := by
  simp [text?, putText, Item.text]

theorem nested?_eq_some_iff {a b : Archive} {key : String} :
    a.nested? key = some b ↔ a.get? key = some (.nested b.entries) := by
  rw [nested?]
  split
  · next entries h =>
    constructor
    · intro e
      cases e
      exact h
    · intro e
      exact congrArg some (ext (Value.nested.inj (Option.some.inj (h.symm.trans e))))
  · next h =>
    constructor
    · intro e; cases e
    · intro e; exact absurd e (h _)

@[simp] theorem nested?_putNested_self (a b : Archive) (key : String) :
    (a.putNested key b).nested? key = some b :=
  nested?_eq_some_iff.2 (by simp [putNested, Item.nested])

end Archive

end GuidedLab
