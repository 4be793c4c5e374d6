/-!
# Completion states

A component is inactive, ongoing or done. A component that is done also says on which branch the
script goes on: branch `0` is the ordinary next page, any other branch is an *outcome*. Keeping the
branch inside `done` leaves one way to write each state, since the outcome `0` is plainly done.

Saved archives hold a state as one integer, its `code`: the branch of a state that is done, and the
two negative numbers below it for the others. `ofCode?` reads a code back (`ofCode?_eq_some_iff`).
-/

namespace GuidedLab

/-- How far a component has come. -/
inductive State where
  | inactive
  | ongoing
  | done (branch : UInt32)
deriving DecidableEq, Repr

namespace State

instance : Inhabited State := ⟨.inactive⟩

/-- Done with nothing special to say: the script goes on with the ordinary next page. -/
abbrev plainlyDone : State := .done 0

/-- The state that gates: whatever the branch, the component is complete. -/
def isDone : State → Bool
  | .done _ => true
  | _ => false

/-- The branch that a complete component selects. -/
def branch? : State → Option UInt32
  | .done b => some b
  | _ => none

/-- The integer that stands for a state in saved archives. -/
def code : State → Int
  | .inactive => -2
  | .ongoing => -1
  | .done b => b.toNat

/-- The state that a saved integer stands for. -/
def ofCode? (n : Int) : Option State :=
  if n = -2 then some .inactive
  else if n = -1 then some .ongoing
  else if 0 ≤ n ∧ n < UInt32.size then some (.done (UInt32.ofNat n.toNat))
  else none

/-- States are ordered as their codes are: inactive, ongoing, plainly done, then by outcome. -/
def le (s t : State) : Bool :=
  s.code ≤ t.code

/-- The state in words. -/
def text : State → String
  | .inactive => "inactive"
  | .ongoing => "ongoing"
  | .done b => if b = 0 then "done" else s!"outcome {b.toNat}"

/-- The state of a group of parts: done when there is a part and all are done. -/
def ofAllDone (allDone : Bool) : State :=
  if allDone then plainlyDone else .ongoing

@[simp] theorem isDone_done (b : UInt32) : (done b).isDone = true := rfl

theorem isDone_iff_branch? (s : State) : s.isDone = true ↔ s.branch?.isSome = true := by
  cases s <;> simp [isDone, branch?]

/-- A code is read as the one state that has it. -/
theorem ofCode?_eq_some_iff {n : Int} {s : State} : ofCode? n = some s ↔ s.code = n := by
  have hsize : UInt32.size = 4294967296 := rfl
  have hcode : ∀ b : UInt32, 0 ≤ (done b).code ∧ (done b).code < UInt32.size := fun b => by
    have := b.toNat_lt
    simp [code]; omega
  constructor
  · intro h
    simp only [ofCode?] at h
    split at h
    · cases h; simp_all [code]
    · split at h
      · cases h; simp_all [code]
      · split at h
        · cases h
          simp only [code, UInt32.toNat_ofNat']
          omega
        · cases h
  · rintro rfl
    cases s with
    | inactive => rfl
    | ongoing => rfl
    | done b =>
      have := hcode b
      rw [ofCode?, if_neg (by omega), if_neg (by omega), if_pos this]
      simp [code]

@[simp] theorem ofCode?_code (s : State) : ofCode? s.code = some s :=
  ofCode?_eq_some_iff.2 rfl

end State

end GuidedLab
