import GuidedLab.Proofs.Json.Digits

/-!
# An archive is read back from its text

The compact and the pretty text of an archive spell one JSON value (`Value.json`) and differ in the blanks
between its parts only. A `Layout` says which blanks stand there. Reading a value skips blanks and stops at a
character that cannot be part of a number, and every value in a laid out text is followed by one, so the
reader gets that value back as long as it is not too deep (`value?_laidOut`). Putting the members of that
value into an empty archive one after the other gives the archive (`addMembers?_json`): its keys are in
order, so each member goes to the end.
-/

namespace GuidedLab.Archive

open Json (Ends)

/-- The blanks in the text of an archive: in front of an entry and of a closing brace at each depth, and
after a colon. -/
structure Layout where
  start : Nat → List Char
  gap : List Char
  blank_start : ∀ level, ∀ c ∈ start level, Json.isBlank c = true
  blank_gap : ∀ c ∈ gap, Json.isBlank c = true

namespace Layout

/-- No blanks. -/
def tight : Layout := ⟨fun _ => [], [], nofun, nofun⟩

theorem blank_lineStart (level : Nat) : ∀ c ∈ lineStart level, Json.isBlank c = true := by
  intro c hc
  rcases List.mem_cons.1 hc with rfl | hc
  · rfl
  · rw [List.eq_of_mem_replicate hc]
    rfl

/-- Each entry on a line of its own. -/
def lines : Layout := ⟨lineStart, [' '], blank_lineStart, List.forall_mem_singleton.2 rfl⟩

end Layout

mutual

/-- The JSON value that a value is written as. -/
def Value.json : Value → Json.Value
  | .bool b => .bool b
  | .int n => .number (.integer n.toInt)
  | .text s => .string s
  | .nested entries => .object (jsonOfEntries entries)

/-- The members that entries are written as. -/
def jsonOfEntries : List (String × Value) → List (String × Json.Value)
  | [] => []
  | (k, v) :: rest => (k, v.json) :: jsonOfEntries rest

end

mutual

/-- The text of a value at a depth in a layout. -/
def Value.laidOut (l : Layout) (level : Nat) : Value → List Char
  | .bool b => truthText b
  | .int n => decimal n.toInt
  | .text s => Json.Quoted.quoted s.toList
  | .nested [] => ['\x7b', '\x7d']
  | .nested (e :: rest) =>
    '\x7b' :: (laidOutEntries l (level + 1) (e :: rest) ++ l.start level ++ ['\x7d'])

/-- The texts of entries at a depth in a layout. -/
def laidOutEntries (l : Layout) (level : Nat) : List (String × Value) → List Char
  | [] => []
  | [(k, v)] => l.start level ++ keyText k ++ ':' :: (l.gap ++ v.laidOut l level)
  | (k, v) :: e :: rest =>
    l.start level ++ keyText k ++
      ':' :: (l.gap ++ (v.laidOut l level ++ ',' :: laidOutEntries l level (e :: rest)))

end

mutual

/-- The compact text has no blanks. -/
theorem compact_eq (level : Nat) : (v : Value) → v.compact = v.laidOut .tight level
  | .bool _ => rfl
  | .int _ => rfl
  | .text _ => rfl
  | .nested [] => rfl
  | .nested (e :: rest) => by
    rw [Value.compact, Value.laidOut, compactEntries_eq (level + 1) (e :: rest)]
    show _ = '\x7b' :: (_ ++ [] ++ ['\x7d'])
    rw [List.append_nil]

/-- Nor have the compact texts of entries. -/
theorem compactEntries_eq (level : Nat) :
    (entries : List (String × Value)) → compactEntries entries = laidOutEntries .tight level entries
  | [] => rfl
  | [(k, v)] => by
    rw [compactEntries, laidOutEntries, compact_eq level v]
    rfl
  | (k, v) :: e :: rest => by
    rw [compactEntries, laidOutEntries, compact_eq level v, compactEntries_eq level (e :: rest)]
    rfl

end

mutual

/-- The pretty text has a line for each entry. -/
theorem pretty_eq (level : Nat) : (v : Value) → v.pretty level = v.laidOut .lines level
  | .bool _ => rfl
  | .int _ => rfl
  | .text _ => rfl
  | .nested [] => rfl
  | .nested (e :: rest) => by
    rw [Value.pretty, Value.laidOut, prettyEntries_eq (level + 1) (e :: rest)]
    rfl

/-- So have the pretty texts of entries. -/
theorem prettyEntries_eq (level : Nat) :
    (entries : List (String × Value)) → prettyEntries level entries = laidOutEntries .lines level entries
  | [] => rfl
  | [(k, v)] => by
    rw [prettyEntries, laidOutEntries, pretty_eq level v]
    rfl
  | (k, v) :: e :: rest => by
    rw [prettyEntries, laidOutEntries, pretty_eq level v, prettyEntries_eq level (e :: rest)]
    rfl

end

/-! ### From the text to the value -/

variable {l : Layout}

theorem Layout.skipBlanks_start (l : Layout) (level : Nat) (rest : List Char) :
    Json.skipBlanks (l.start level ++ rest) = Json.skipBlanks rest :=
  Json.skipBlanks_append (l.blank_start level) rest

theorem Layout.value?_gap (l : Layout) (n : Nat) (input : List Char) :
    Json.value? n (l.gap ++ input) = Json.value? n input := by
  rw [← Json.value?_skipBlanks, Json.skipBlanks_append l.blank_gap, Json.value?_skipBlanks]

theorem Layout.ends_start_brace (l : Layout) (level : Nat) (rest : List Char) :
    Ends (l.start level ++ '\x7d' :: rest) := by
  apply Ends.of_blanks (l.blank_start level)
  intro c hc
  cases hc
  decide

theorem Layout.skipBlanks_start_brace (l : Layout) (level : Nat) (rest : List Char) :
    Json.skipBlanks (l.start level ++ '\x7d' :: rest) = '\x7d' :: rest := by
  rw [l.skipBlanks_start, Json.skipBlanks_of_head (by decide)]

theorem ends_comma (rest : List Char) : Ends (',' :: rest) := by
  intro c hc
  cases hc
  decide

/-- What the text of an integer may begin with: neither a container nor a text nor a word does. -/
def IsNumberHead (c : Char) : Prop :=
  Json.isBlank c = false ∧ c ≠ '[' ∧ c ≠ '\x7b' ∧ c ≠ Json.Quoted.mark ∧ c ≠ 'n' ∧ c ≠ 't' ∧ c ≠ 'f'

instance (c : Char) : Decidable (IsNumberHead c) := inferInstanceAs (Decidable (_ ∧ _))

theorem isNumberHead_digitChar : ∀ k < 10, IsNumberHead (Nat.digitChar k) := by
  decide

theorem exists_decimal (n : Int) : ∃ c cs, decimal n = c :: cs ∧ IsNumberHead c := by
  rw [decimal, Nat.toList_repr]
  split
  · exact ⟨'-', _, rfl, by decide⟩
  · cases hd : Nat.toDigits 10 n.natAbs with
    | nil =>
        have := Nat.length_toDigits_pos (b := 10) (n := n.natAbs)
        rw [hd] at this
        cases this
    | cons c cs =>
        obtain ⟨k, hk, rfl⟩ : ∃ k < 10, c = k.digitChar :=
          Text.mem_toDigits (n := n.natAbs) (by omega) (hd ▸ List.mem_cons_self)
        exact ⟨_, cs, rfl, isNumberHead_digitChar k hk⟩

theorem valueWith?_decimal (array? : List Char → Option (List Json.Value × List Char))
    (object? : List Char → Option (List (String × Json.Value) × List Char)) (n : Int64)
    {rest : List Char} (hr : Ends rest) :
    Json.valueWith? array? object? (decimal n.toInt ++ rest) =
      some (.number (.integer n.toInt), rest) := by
  have hread := Json.Number.read?_decimal n hr
  obtain ⟨c, cs, hcs, hblank, h₁, h₂, h₃, h₄, h₅, h₆⟩ := exists_decimal n.toInt
  rw [hcs, List.cons_append] at hread ⊢
  rw [Json.valueWith?, Json.skipBlanks_of_head hblank]
  dsimp only
  rw [if_neg h₁, if_neg h₂, if_neg h₃, if_neg h₄, if_neg h₅, if_neg h₆, hread]
  rfl

theorem valueWith?_quoted (array? : List Char → Option (List Json.Value × List Char))
    (object? : List Char → Option (List (String × Json.Value) × List Char)) (s : String)
    (rest : List Char) :
    Json.valueWith? array? object? (Json.Quoted.quoted s.toList ++ rest) =
      some (.string s, rest) := by
  have hread := Json.Quoted.unquoted?_quoted s.toList rest
  rw [Json.Quoted.quoted, List.cons_append, List.append_assoc, Json.valueWith?,
    Json.skipBlanks_of_head (by decide)]
  show (Json.Quoted.unquoted? _).map _ = _
  rw [List.singleton_append, hread]
  exact congrArg (fun t => some (Json.Value.string t, rest)) (String.ofList_toList)

theorem valueWith?_truthText (array? : List Char → Option (List Json.Value × List Char))
    (object? : List Char → Option (List (String × Json.Value) × List Char)) (b : Bool)
    (rest : List Char) :
    Json.valueWith? array? object? (truthText b ++ rest) = some (.bool b, rest) := by
  cases b <;> rfl

/-- The text of an entry begins with the quotation mark of its key, after blanks. -/
theorem skipBlanks_key (l : Layout) (level : Nat) (key : String) (rest : List Char) :
    Json.skipBlanks (l.start level ++ keyText key ++ rest) =
      Json.Quoted.mark :: (key.toList.flatMap Json.Quoted.escaped ++ Json.Quoted.mark :: rest) := by
  rw [List.append_assoc, l.skipBlanks_start, keyText, Json.Quoted.quoted, List.cons_append,
    List.append_assoc, Json.skipBlanks_of_head (by decide), List.singleton_append]

/-- So does the text of entries that are at least one. -/
theorem skipBlanks_laidOutEntries (l : Layout) (level : Nat) (e : String × Value)
    (rest : List (String × Value)) (tail : List Char) :
    ∃ text, Json.skipBlanks (laidOutEntries l level (e :: rest) ++ tail) =
      Json.Quoted.mark :: text := by
  obtain ⟨k, v⟩ := e
  cases rest with
  | nil =>
      rw [laidOutEntries, List.append_assoc, skipBlanks_key]
      exact ⟨_, rfl⟩
  | cons e rest =>
      rw [laidOutEntries, List.append_assoc, skipBlanks_key]
      exact ⟨_, rfl⟩

/-- A member is read from the text of its entry, if its value is. -/
theorem member?_entry {value? : List Char → Option (Json.Value × List Char)} (l : Layout) (level : Nat)
    (key : String) {text rest : List Char} {v : Json.Value} (h : value? text = some (v, rest)) :
    Json.member? value? (l.start level ++ keyText key ++ ':' :: text) = some ((key, v), rest) := by
  have hname : Json.name? (l.start level ++ keyText key ++ ':' :: text) = some (key, ':' :: text) := by
    rw [Json.name?, skipBlanks_key]
    show (Json.Quoted.unquoted? _).map _ = _
    rw [Json.Quoted.unquoted?_quoted]
    exact congrArg (fun t => some (t, ':' :: text)) String.ofList_toList
  have hcolon : Json.skipBlanks (':' :: text) = ':' :: text :=
    Json.skipBlanks_of_head (by decide) _
  rw [Json.member?, hname]
  simp [hcolon, h]

theorem length_le_laidOutEntries (l : Layout) (level : Nat) (entries : List (String × Value)) :
    entries.length ≤ (laidOutEntries l level entries).length := by
  induction entries with
  | nil => exact Nat.le_refl _
  | cons e rest ih =>
      obtain ⟨k, v⟩ := e
      cases rest with
      | nil =>
          rw [laidOutEntries, List.length_append]
          simp only [List.length_cons, List.length_nil]
          omega
      | cons e rest =>
          rw [laidOutEntries, List.length_append]
          simp only [List.length_cons, List.length_append] at ih ⊢
          omega

/-- The members of a container may have blanks in front. -/
theorem container?_of_listed {value? : List Char → Option (Json.Value × List Char)}
    {input text : List Char} {r : List (String × Json.Value) × List Char}
    (hmark : Json.skipBlanks input = Json.Quoted.mark :: text)
    (h : Json.listed? (Json.member? value?) '\x7d' input.length input = some r) :
    Json.container? (Json.member? value?) '\x7d' input = some r := by
  rw [Json.container?, hmark]
  dsimp only
  rw [if_neg (by decide), ← hmark, ← h]
  cases input.length with
  | zero => rfl
  | succ n => rw [Json.listed?, Json.listed?, Json.member?_skipBlanks]

/-- Entries are read back from their text, up to the closing brace of their archive. -/
def EntriesRead (l : Layout) (n : Nat) (entries : List (String × Value)) : Prop :=
  ∀ (level outer : Nat) (rest : List Char) (m : Nat), entries.length ≤ m →
    Json.listed? (Json.member? (Json.value? n)) '\x7d' m
        (laidOutEntries l level entries ++ (l.start outer ++ '\x7d' :: rest)) =
      some (jsonOfEntries entries, rest)

/-- A value is read back from its text, at any level. -/
def ValueRead (l : Layout) (n : Nat) (v : Value) : Prop :=
  ∀ (level : Nat) {rest : List Char}, Ends rest →
    Json.value? n (v.laidOut l level ++ rest) = some (v.json, rest)

theorem ValueRead.member? {n : Nat} {v : Value} (h : ValueRead l n v) (level : Nat) (key : String)
    {rest : List Char} (hr : Ends rest) :
    Json.member? (Json.value? n)
        (l.start level ++ (keyText key ++ ':' :: (l.gap ++ (v.laidOut l level ++ rest)))) =
      some ((key, v.json), rest) := by
  have hv := h level hr
  rw [← l.value?_gap] at hv
  rw [← List.append_assoc]
  exact member?_entry l level key hv

theorem EntriesRead.singleton {n : Nat} {v : Value} (h : ValueRead l n v) (key : String) :
    EntriesRead l n [(key, v)] := by
  intro level outer rest m hm
  obtain ⟨m, rfl⟩ := Nat.exists_eq_succ_of_ne_zero (Nat.ne_zero_of_lt hm)
  have hmember := h.member? level key (l.ends_start_brace outer rest)
  rw [laidOutEntries]
  simp only [List.append_assoc, List.cons_append]
  rw [Json.listed?_last hmember (l.skipBlanks_start_brace outer rest)]
  rfl

theorem EntriesRead.cons {n : Nat} {v : Value} {e : String × Value} {entries : List (String × Value)}
    (h : ValueRead l n v) (key : String) (hrest : EntriesRead l n (e :: entries)) :
    EntriesRead l n ((key, v) :: e :: entries) := by
  intro level outer rest m hm
  obtain ⟨m, rfl⟩ := Nat.exists_eq_succ_of_ne_zero (Nat.ne_zero_of_lt hm)
  have hmember := h.member? level key
    (ends_comma (laidOutEntries l level (e :: entries) ++ (l.start outer ++ '\x7d' :: rest)))
  rw [laidOutEntries]
  simp only [List.append_assoc, List.cons_append]
  rw [Json.listed?_more hmember (Json.skipBlanks_of_head (by decide) _) (by decide),
    hrest level outer rest m (Nat.le_of_succ_le_succ hm)]
  rfl

theorem ValueRead.nested {n : Nat} {e : String × Value} {entries : List (String × Value)}
    (h : EntriesRead l n (e :: entries)) : ValueRead l (n + 1) (.nested (e :: entries)) := by
  intro level rest _
  obtain ⟨text, hmark⟩ :=
    skipBlanks_laidOutEntries l (level + 1) e entries (l.start level ++ '\x7d' :: rest)
  have htext : Value.laidOut l level (.nested (e :: entries)) ++ rest =
      '\x7b' :: (laidOutEntries l (level + 1) (e :: entries) ++ (l.start level ++ '\x7d' :: rest)) := by
    rw [Value.laidOut]
    simp only [List.cons_append, List.append_assoc, List.nil_append]
  have hlength := length_le_laidOutEntries l (level + 1) (e :: entries)
  rw [htext, Json.value?_brace, container?_of_listed hmark (h (level + 1) level rest _ ?_)]
  · rfl
  · rw [List.length_append]
    omega

mutual

/-- A value that is not too deep is read back from its text. -/
theorem value?_laidOut (l : Layout) : (v : Value) → ∀ n, v.depth ≤ n → ValueRead l n v
  | .bool b, n, _ => by
    intro level rest _
    cases n <;> exact valueWith?_truthText _ _ b rest
  | .int k, n, _ => by
    intro level rest hr
    cases n <;> exact valueWith?_decimal _ _ k hr
  | .text s, n, _ => by
    intro level rest _
    cases n <;> exact valueWith?_quoted _ _ s rest
  | .nested entries, n, h => by
    rw [Value.depth] at h
    obtain ⟨n, rfl⟩ := Nat.exists_eq_succ_of_ne_zero (by omega : n ≠ 0)
    cases entries with
    | nil =>
        intro level rest _
        rw [Value.laidOut, List.cons_append, Json.value?_brace]
        rfl
    | cons e entries =>
        exact .nested (listed?_laidOutEntries l (e :: entries) n (by omega) (List.cons_ne_nil _ _))

/-- And so are the entries of an archive that has some. -/
theorem listed?_laidOutEntries (l : Layout) : (entries : List (String × Value)) → ∀ n,
    depthOfEntries entries ≤ n → entries ≠ [] → EntriesRead l n entries
  | [], _, _, h => absurd rfl h
  | (k, v) :: entries, n, h, _ => by
    rw [depthOfEntries] at h
    have hv := value?_laidOut l v n (by omega)
    have hentries := listed?_laidOutEntries l entries n (by omega)
    cases entries with
    | nil => exact .singleton hv k
    | cons e entries => exact .cons hv k (hentries (List.cons_ne_nil _ _))

end

/-! ### From the value to the archive -/

theorem insertEntry_of_forall_lt {key : String} {entries : Entries}
    (h : ∀ e ∈ entries, e.1 < key) (v : Value) : insertEntry key v entries = entries ++ [(key, v)] := by
  induction entries with
  | nil => rfl
  | cons e rest ih =>
      obtain ⟨k, w⟩ := e
      have hk : k < key := h (k, w) List.mem_cons_self
      rw [insertEntry, if_neg (String.lt_asymm hk), if_neg (String.ne_of_lt hk).symm,
        ih fun e he => h e (List.mem_cons_of_mem _ he)]
      rfl

mutual

/-- The item of the JSON value that a value is written as is the value. -/
theorem itemOfJson?_json : (v : Value) → (h : v.Ordered) → itemOfJson? v.json = some ⟨v, h⟩
  | .bool _, _ => rfl
  | .text _, _ => rfl
  | .int n, h => by
    have hfits : Int64.minValue.toInt ≤ n.toInt ∧ n.toInt ≤ Int64.maxValue.toInt :=
      ⟨Int64.minValue_le_toInt n, Int64.toInt_le n⟩
    rw [Value.json, itemOfJson?, if_pos hfits]
    simp [Item.int]
  | .nested entries, h => by
    rw [Value.json, itemOfJson?, addMembers?_json entries empty ⟨entries, h⟩ rfl]
    rfl

/-- Putting the members of the rest of an archive into the beginning of it gives the archive. -/
theorem addMembers?_json : (entries : List (String × Value)) → (a b : Archive) →
    b.entries = a.entries ++ entries → addMembers? (jsonOfEntries entries) a = some b
  | [], a, b, h => by
    rw [List.append_nil] at h
    rw [ext h]
    rfl
  | (k, v) :: rest, a, b, h => by
    have hordered := b.ordered
    rw [h] at hordered
    have hlast : ∀ e ∈ a.entries, e.1 < k := fun e he =>
      (List.pairwise_append.1 hordered.1).2.2 e he (k, v) List.mem_cons_self
    have hv : v.Ordered :=
      allOrdered_iff.1 hordered.2 (k, v) (List.mem_append_right _ List.mem_cons_self)
    rw [jsonOfEntries, addMembers?, itemOfJson?_json v hv]
    have hput : (a.put k ⟨v, hv⟩).entries = a.entries ++ [(k, v)] := insertEntry_of_forall_lt hlast v
    apply addMembers?_json rest (a.put k ⟨v, hv⟩) b
    rw [h, hput, List.append_assoc]
    rfl

end

/-- An archive that is not too deep is read back from its text in any layout, blanks after it or not. -/
theorem ofText?_laidOut (l : Layout) (blanks : List Char) {a : Archive}
    (h : a.depth ≤ Json.depthLimit) {text : String} (hblanks : ∀ c ∈ blanks, Json.isBlank c = true)
    (htext : text.toList = Value.laidOut l 0 (.nested a.entries) ++ blanks) : ofText? text = some a := by
  have hends : Ends (blanks ++ []) := Ends.of_blanks hblanks nofun
  rw [List.append_nil] at hends
  have hskip := Json.skipBlanks_append hblanks []
  rw [List.append_nil] at hskip
  have hread := value?_laidOut l (.nested a.entries) Json.depthLimit h 0 hends
  have hjson : Json.ofText? text = some (.object (jsonOfEntries a.entries)) := by
    rw [Json.ofText?, htext]
    show (Json.value? Json.depthLimit _).bind _ = _
    rw [hread]
    show (if (Json.skipBlanks blanks).isEmpty then _ else _) = _
    rw [hskip]
    rfl
  rw [ofText?, hjson]
  exact addMembers?_json a.entries empty a rfl

theorem ofText?_compact {a : Archive} (h : a.depth ≤ Json.depthLimit) :
    ofText? a.compact = some a := by
  apply ofText?_laidOut .tight [] h nofun
  rw [compact, String.toList_ofList, compact_eq 0, List.append_nil]

theorem ofText?_pretty {a : Archive} (h : a.depth ≤ Json.depthLimit) :
    ofText? a.pretty = some a := by
  apply ofText?_laidOut .lines [] h nofun
  rw [pretty, String.toList_ofList, pretty_eq 0, List.append_nil]

/-- A line break after the pretty text does not matter. -/
theorem ofText?_pretty_line {a : Archive} (h : a.depth ≤ Json.depthLimit) :
    ofText? (a.pretty ++ "\n") = some a := by
  apply ofText?_laidOut .lines ['\n'] h (List.forall_mem_singleton.2 rfl)
  rw [String.toList_append, pretty, String.toList_ofList, pretty_eq 0]
  rfl

end GuidedLab.Archive
