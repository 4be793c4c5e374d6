import GuidedLab.Json.Reader

/-!
# What a JSON text can hold

A value is no deeper than the reader's limit, and every value in it has taken a character of the text
(`bounds_of_ofText?`). Settling drops members, so it makes a value neither deeper nor larger.
-/

namespace GuidedLab.Json

namespace Value

mutual

/-- The number of values in a value, itself included. -/
def size : Value → Nat
  | .array items => 1 + sizeOfItems items
  | .object members => 1 + sizeOfMembers members
  | _ => 1

/-- The number of values in items. -/
def sizeOfItems : List Value → Nat
  | [] => 0
  | v :: rest => size v + sizeOfItems rest

/-- The number of values in members. -/
def sizeOfMembers : List (String × Value) → Nat
  | [] => 0
  | (_, v) :: rest => size v + sizeOfMembers rest

end

theorem depthOfItems_le {n : Nat} {items : List Value} (h : ∀ v ∈ items, v.depth ≤ n) :
    depthOfItems items ≤ n := by
  induction items with
  | nil => exact Nat.zero_le n
  | cons v rest ih =>
      rw [depthOfItems, Nat.max_le]
      exact ⟨h v List.mem_cons_self, ih fun w hw => h w (List.mem_cons_of_mem v hw)⟩

theorem depthOfMembers_le {n : Nat} {members : List (String × Value)}
    (h : ∀ m ∈ members, m.2.depth ≤ n) : depthOfMembers members ≤ n := by
  induction members with
  | nil => exact Nat.zero_le n
  | cons m rest ih =>
      rw [depthOfMembers, Nat.max_le]
      exact ⟨h m List.mem_cons_self, ih fun w hw => h w (List.mem_cons_of_mem m hw)⟩

mutual

/-- Settling makes no value deeper or larger. -/
theorem settled_le : (v : Value) → v.settled.depth ≤ v.depth ∧ v.settled.size ≤ v.size
  | .null => ⟨Nat.le_refl _, Nat.le_refl _⟩
  | .bool _ => ⟨Nat.le_refl _, Nat.le_refl _⟩
  | .number _ => ⟨Nat.le_refl _, Nat.le_refl _⟩
  | .string _ => ⟨Nat.le_refl _, Nat.le_refl _⟩
  | .array items => by
    obtain ⟨hd, hs⟩ := settledItems_le items
    rw [settled, depth, depth, size, size]
    omega
  | .object members => by
    obtain ⟨hd, hs⟩ := settledMembers_le members
    rw [settled, depth, depth, size, size]
    omega

/-- Nor do items grow. -/
theorem settledItems_le : (items : List Value) →
    depthOfItems (settledItems items) ≤ depthOfItems items ∧
      sizeOfItems (settledItems items) ≤ sizeOfItems items
  | [] => ⟨Nat.le_refl _, Nat.le_refl _⟩
  | v :: rest => by
    obtain ⟨hd, hs⟩ := settled_le v
    obtain ⟨hds, hss⟩ := settledItems_le rest
    rw [settledItems, depthOfItems, depthOfItems, sizeOfItems, sizeOfItems]
    omega

/-- Nor do members. -/
theorem settledMembers_le : (members : List (String × Value)) →
    depthOfMembers (settledMembers members) ≤ depthOfMembers members ∧
      sizeOfMembers (settledMembers members) ≤ sizeOfMembers members
  | [] => ⟨Nat.le_refl _, Nat.le_refl _⟩
  | (k, v) :: rest => by
    obtain ⟨hd, hs⟩ := settled_le v
    obtain ⟨hds, hss⟩ := settledMembers_le rest
    rw [settledMembers]
    split
    · rw [depthOfMembers, sizeOfMembers]
      omega
    · rw [depthOfMembers, depthOfMembers, sizeOfMembers, sizeOfMembers]
      omega

end

end Value

theorem length_skipBlanks_le (input : List Char) : (skipBlanks input).length ≤ input.length :=
  (List.dropWhile_suffix isBlank).length_le

theorem length_after?_le {expected input rest : List Char} (h : after? expected input = some rest) :
    rest.length ≤ input.length := by
  induction expected generalizing input with
  | nil =>
      cases h
      exact Nat.le_refl _
  | cons c cs ih =>
      cases input with
      | nil => cases h
      | cons d input =>
          rw [after?] at h
          split at h
          · exact Nat.le_succ_of_le (ih h)
          · cases h

/-! ### Quoted texts and numbers -/

theorem Quoted.length_pieces?_le {input : List Char} {ps : List Quoted.Piece} {rest : List Char}
    (h : Quoted.pieces? input = some (ps, rest)) : rest.length ≤ input.length := by
  fun_induction Quoted.pieces? input generalizing ps rest with
  | case1 => cases h
  | case2 tail =>
      cases h
      exact Nat.le_succ _
  | case3 w x y z tail _ ih =>
      obtain ⟨n, -, h⟩ := Option.bind_eq_some_iff.1 h
      obtain ⟨r, hr, h⟩ := Option.map_eq_some_iff.1 h
      cases h
      have := ih hr
      simp only [List.length_cons]
      omega
  | case4 e tail _ _ ih =>
      obtain ⟨d, -, h⟩ := Option.bind_eq_some_iff.1 h
      obtain ⟨r, hr, h⟩ := Option.map_eq_some_iff.1 h
      cases h
      have := ih hr
      simp only [List.length_cons]
      omega
  | case5 => cases h
  | case6 => cases h
  | case7 c tail hm hb hc ih =>
      obtain ⟨r, hr, h⟩ := Option.map_eq_some_iff.1 h
      cases h
      exact Nat.le_succ_of_le (ih hr)

theorem Quoted.length_unquoted?_le {input s rest : List Char}
    (h : Quoted.unquoted? input = some (s, rest)) : rest.length ≤ input.length := by
  obtain ⟨r, hr, h⟩ := Option.bind_eq_some_iff.1 h
  obtain ⟨t, -, h⟩ := Option.map_eq_some_iff.1 h
  cases h
  exact length_pieces?_le hr

namespace Number

theorem length_digits (input : List Char) :
    (digits input).1.length + (digits input).2.length = input.length := by
  rw [digits, ← List.length_append, List.takeWhile_append_dropWhile]

theorem length_integerDigits?_lt {input whole rest : List Char}
    (h : integerDigits? input = some (whole, rest)) : rest.length < input.length := by
  have hlen := length_digits input
  rw [integerDigits?] at h
  cases hd : digits input with
  | mk ds tail =>
  rw [hd] at h hlen
  dsimp only at h hlen
  split at h
  · cases h
  · cases h
    rw [← hlen, List.length_singleton]
    omega
  · cases h
  · next hne _ _ =>
      cases h
      rw [← hlen]
      exact Nat.lt_add_of_pos_left (List.length_pos_iff.2 hne)

theorem length_fraction?_le {input fraction rest : List Char}
    (h : fraction? input = some (fraction, rest)) : rest.length ≤ input.length := by
  rw [fraction?.eq_def] at h
  split at h
  · next input =>
      have hlen := length_digits input
      cases hd : digits input with
      | mk ds tail =>
      rw [hd] at h hlen
      dsimp only at h hlen
      split at h
      · cases h
      · cases h
        rw [List.length_cons, ← hlen]
        omega
  · cases h
    exact Nat.le_refl _

theorem length_exponentSign_le (input : List Char) :
    (exponentSign input).2.length ≤ input.length := by
  rw [exponentSign.eq_def]
  split <;> simp

theorem length_exponent?_le {input rest : List Char} {exponent : Option Int}
    (h : exponent? input = some (exponent, rest)) : rest.length ≤ input.length := by
  rw [exponent?.eq_def] at h
  split at h
  · next c input =>
      split at h
      · have hsign := length_exponentSign_le input
        cases hx : exponentSign input with
        | mk negative unsigned =>
        rw [hx] at h hsign
        have hlen : (unsigned.dropWhile Text.isDigit).length ≤ unsigned.length :=
          (List.dropWhile_suffix _).length_le
        obtain ⟨n, -, h⟩ := Option.map_eq_some_iff.1 h
        cases h
        rw [List.length_cons]
        dsimp only at hsign
        omega
      · cases h
        exact Nat.le_refl _
  · cases h
    exact Nat.le_refl _

/-- A number takes a character. -/
theorem length_read?_lt {input rest : List Char} {n : Number}
    (h : read? input = some (n, rest)) : rest.length < input.length := by
  rw [read?.eq_def] at h
  split at h
  next negative unsigned hsign =>
  have h₀ : unsigned.length ≤ input.length := by
    split at hsign
    · cases hsign
      exact Nat.le_succ _
    · cases hsign
      exact Nat.le_refl _
  obtain ⟨⟨whole, afterWhole⟩, hwhole, h⟩ := Option.bind_eq_some_iff.1 h
  obtain ⟨⟨fraction, afterFraction⟩, hfraction, h⟩ := Option.bind_eq_some_iff.1 h
  obtain ⟨⟨exponent, afterExponent⟩, hexponent, h⟩ := Option.bind_eq_some_iff.1 h
  obtain ⟨_, -, h⟩ := Option.bind_eq_some_iff.1 h
  cases h
  have h₁ := length_integerDigits?_lt hwhole
  have h₂ := length_fraction?_le hfraction
  have h₃ := length_exponent?_le hexponent
  omega

end Number

/-! ### Containers -/

section Listed

variable {α : Type} {item? : List Char → Option (α × List Char)} {close : Char}
  {P : α → Prop} {weight : α → Nat} {total : List α → Nat}

/-- What every item that can be read is like, and that it takes at least its weight in characters, goes
for all items of a row. -/
theorem listed?_bounds (nil : total [] = 0) (cons : ∀ a l, total (a :: l) = weight a + total l)
    (item : ∀ input a rest, item? input = some (a, rest) →
      P a ∧ weight a + rest.length ≤ input.length)
    {n : Nat} {input : List Char} {l : List α} {rest : List Char}
    (h : listed? item? close n input = some (l, rest)) :
    (∀ a ∈ l, P a) ∧ total l + rest.length ≤ input.length := by
  induction n generalizing input l rest with
  | zero => cases h
  | succ n ih =>
      rw [listed?] at h
      obtain ⟨⟨a, afterItem⟩, ha, h⟩ := Option.bind_eq_some_iff.1 h
      obtain ⟨hP, hlen⟩ := item _ _ _ ha
      have hskip := length_skipBlanks_le afterItem
      dsimp only at h
      split at h
      · cases h
      · next c tail htail =>
          rw [htail, List.length_cons] at hskip
          split at h
          · cases h
            refine ⟨fun b hb => (List.mem_singleton.1 hb) ▸ hP, ?_⟩
            rw [cons, nil]
            omega
          · split at h
            · obtain ⟨⟨others, afterOthers⟩, ho, h⟩ := Option.map_eq_some_iff.1 h
              cases h
              obtain ⟨hall, hrest⟩ := ih ho
              refine ⟨?_, by rw [cons]; dsimp only; omega⟩
              intro b hb
              rcases List.mem_cons.1 hb with rfl | hb
              · exact hP
              · exact hall b hb
            · cases h

theorem container?_bounds (weight : α → Nat) (total : List α → Nat) (nil : total [] = 0)
    (cons : ∀ a l, total (a :: l) = weight a + total l)
    (item : ∀ input a rest, item? input = some (a, rest) →
      P a ∧ weight a + rest.length ≤ input.length)
    {input : List Char} {l : List α} {rest : List Char}
    (h : container? item? close input = some (l, rest)) :
    (∀ a ∈ l, P a) ∧ total l + rest.length ≤ input.length := by
  have hskip := length_skipBlanks_le input
  rw [container?] at h
  split at h
  · cases h
  · next c tail htail =>
      rw [htail] at hskip
      split at h
      · cases h
        refine ⟨nofun, ?_⟩
        rw [nil]
        simp only [List.length_cons] at hskip
        omega
      · obtain ⟨hall, hlen⟩ := listed?_bounds nil cons item h
        exact ⟨hall, by omega⟩

end Listed

theorem length_name?_le {input rest : List Char} {s : String} (h : name? input = some (s, rest)) :
    rest.length ≤ input.length := by
  have hskip := length_skipBlanks_le input
  rw [name?] at h
  split at h
  · cases h
  · next c tail htail =>
      rw [htail, List.length_cons] at hskip
      split at h
      · obtain ⟨r, hr, h⟩ := Option.map_eq_some_iff.1 h
        cases h
        have := Quoted.length_unquoted?_le hr
        omega
      · cases h

theorem member?_bounds {read? : List Char → Option (Value × List Char)} {n : Nat}
    (hread : ∀ {input rest : List Char} {v : Value}, read? input = some (v, rest) →
      v.depth ≤ n ∧ v.size + rest.length ≤ input.length)
    {input rest : List Char} {m : String × Value} (h : member? read? input = some (m, rest)) :
    m.2.depth ≤ n ∧ m.2.size + rest.length ≤ input.length := by
  rw [member?] at h
  obtain ⟨⟨name, afterName⟩, hname, h⟩ := Option.bind_eq_some_iff.1 h
  have hlen := length_name?_le hname
  have hskip := length_skipBlanks_le afterName
  dsimp only at h
  split at h
  · next tail htail =>
      rw [htail, List.length_cons] at hskip
      obtain ⟨⟨v, afterValue⟩, hv, h⟩ := Option.bind_eq_some_iff.1 h
      cases h
      obtain ⟨hd, hs⟩ := hread hv
      exact ⟨hd, by dsimp only; omega⟩
  · cases h

/-- A value is an array or an object whose opening character is taken, or takes a character itself. -/
theorem valueWith?_cases {array? : List Char → Option (List Value × List Char)}
    {object? : List Char → Option (List (String × Value) × List Char)} {input rest : List Char}
    {v : Value} (h : valueWith? array? object? input = some (v, rest)) :
    (∃ items tail, tail.length < input.length ∧ array? tail = some (items, rest) ∧
      v = .array items) ∨
    (∃ members tail, tail.length < input.length ∧ object? tail = some (members, rest) ∧
      v = .object members) ∨
    v.depth = 0 ∧ v.size = 1 ∧ rest.length < input.length := by
  have hskip := length_skipBlanks_le input
  rw [valueWith?] at h
  split at h
  · cases h
  · next c tail htail =>
      rw [htail, List.length_cons] at hskip
      have word : ∀ {expected : List Char} {w : Value},
          (after? expected tail).map (fun r => (w, r)) = some (v, rest) →
          v = w ∧ rest.length ≤ tail.length := by
        intro expected w h
        obtain ⟨r, hr, h⟩ := Option.map_eq_some_iff.1 h
        cases h
        exact ⟨rfl, length_after?_le hr⟩
      split at h
      · obtain ⟨r, hr, h⟩ := Option.map_eq_some_iff.1 h
        cases h
        exact Or.inl ⟨r.1, tail, by omega, hr, rfl⟩
      · split at h
        · obtain ⟨r, hr, h⟩ := Option.map_eq_some_iff.1 h
          cases h
          exact Or.inr (Or.inl ⟨r.1, tail, by omega, hr, rfl⟩)
        · refine Or.inr (Or.inr ?_)
          split at h
          · obtain ⟨r, hr, h⟩ := Option.map_eq_some_iff.1 h
            cases h
            have := Quoted.length_unquoted?_le hr
            exact ⟨rfl, rfl, by omega⟩
          · split at h
            · obtain ⟨rfl, hlen⟩ := word h
              exact ⟨rfl, rfl, by omega⟩
            · split at h
              · obtain ⟨rfl, hlen⟩ := word h
                exact ⟨rfl, rfl, by omega⟩
              · split at h
                · obtain ⟨rfl, hlen⟩ := word h
                  exact ⟨rfl, rfl, by omega⟩
                · obtain ⟨r, hr, h⟩ := Option.map_eq_some_iff.1 h
                  cases h
                  have := Number.length_read?_lt hr
                  rw [List.length_cons] at this
                  exact ⟨rfl, rfl, by omega⟩

/-- A value is no deeper than the limit, and takes a character for each value in it. -/
theorem value?_bounds {n : Nat} {input rest : List Char} {v : Value}
    (h : value? n input = some (v, rest)) :
    v.depth ≤ n ∧ v.size + rest.length ≤ input.length := by
  induction n generalizing input rest v with
  | zero =>
      rw [value?] at h
      rcases valueWith?_cases h with ⟨_, _, -, h, -⟩ | ⟨_, _, -, h, -⟩ | ⟨hd, hs, hlen⟩
      · cases h
      · cases h
      · omega
  | succ n ih =>
      rw [value?] at h
      rcases valueWith?_cases h with
        ⟨items, tail, hlen, hitems, rfl⟩ | ⟨members, tail, hlen, hmembers, rfl⟩ | ⟨hd, hs, hlen⟩
      · obtain ⟨hall, hsize⟩ := container?_bounds (P := fun w : Value => w.depth ≤ n)
          Value.size Value.sizeOfItems rfl (fun _ _ => rfl)
          (fun _ _ _ hw => ih hw) hitems
        have := Value.depthOfItems_le hall
        rw [Value.depth, Value.size]
        omega
      · obtain ⟨hall, hsize⟩ := container?_bounds
          (P := fun m : String × Value => m.2.depth ≤ n)
          (fun m => m.2.size) Value.sizeOfMembers rfl (fun _ _ => rfl)
          (fun _ _ _ hm => member?_bounds ih hm) hmembers
        have := Value.depthOfMembers_le hall
        rw [Value.depth, Value.size]
        omega
      · omega

/-- So much for a text that spells a value. -/
theorem bounds_of_ofText? {text : String} {v : Value} (h : ofText? text = some v) :
    v.depth ≤ depthLimit ∧ v.size ≤ text.toList.length := by
  rw [ofText?] at h
  obtain ⟨⟨w, rest⟩, hw, h⟩ := Option.bind_eq_some_iff.1 h
  dsimp only at h
  split at h
  · cases h
    obtain ⟨hd, hs⟩ := value?_bounds hw
    exact ⟨hd, by omega⟩
  · cases h

end GuidedLab.Json
