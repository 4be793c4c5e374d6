/-!
# JSON values

A value as read: an object keeps its members in the order of the text, a name as often as it is
written. Two readers of objects exist. One looks at every member, written over or not. The other
lets the last member of a name count; for it `settled` drops, at every depth, the members that a
later one of the same name replaces.

Numbers are integers when they are written as plain integers within 64 bits, and reals otherwise.
-/

namespace GuidedLab.Json

/-- A number as written: a plain integer, or anything else by its sign and size. -/
inductive Number where
  | integer (n : Int)
  | real (negative : Bool) (size : Rat)
deriving DecidableEq, Repr

/-- A JSON value. -/
inductive Value where
  | null
  | bool (b : Bool)
  | number (n : Number)
  | string (s : String)
  | array (items : List Value)
  | object (members : List (String × Value))

namespace Value

instance : Inhabited Value := ⟨.null⟩

/-- The value of the first member of a name. -/
def member? (name : String) : List (String × Value) → Option Value
  | [] => none
  | (k, v) :: rest => if k = name then some v else member? name rest

/-- Whether a name occurs among the members. -/
def hasMember (name : String) (members : List (String × Value)) : Bool :=
  members.any fun m => m.1 = name

mutual

/-- The value without members that a later one of the same name replaces. -/
def settled : Value → Value
  | .array items => .array (settledItems items)
  | .object members => .object (settledMembers members)
  | v => v

/-- The items, settled. -/
def settledItems : List Value → List Value
  | [] => []
  | v :: rest => settled v :: settledItems rest

/-- The members that count, settled. -/
def settledMembers : List (String × Value) → List (String × Value)
  | [] => []
  | (k, v) :: rest =>
    if hasMember k rest then settledMembers rest else (k, settled v) :: settledMembers rest

end

mutual

/-- The number of containers around the innermost value, itself included. -/
def depth : Value → Nat
  | .array items => 1 + depthOfItems items
  | .object members => 1 + depthOfMembers members
  | _ => 0

/-- The greatest depth among items. -/
def depthOfItems : List Value → Nat
  | [] => 0
  | v :: rest => max (depth v) (depthOfItems rest)

/-- The greatest depth among members. -/
def depthOfMembers : List (String × Value) → Nat
  | [] => 0
  | (_, v) :: rest => max (depth v) (depthOfMembers rest)

end

@[simp] theorem member?_nil (name : String) : member? name [] = none := rfl

theorem member?_cons (name k : String) (v : Value) (rest : List (String × Value)) :
    member? name ((k, v) :: rest) = if k = name then some v else member? name rest := rfl

theorem member?_eq_none_iff {name : String} {members : List (String × Value)} :
    member? name members = none ↔ name ∉ members.map Prod.fst := by
  induction members with
  | nil => simp
  | cons m rest ih =>
    obtain ⟨k, v⟩ := m
    rw [member?_cons]
    by_cases h : k = name
    · simp [h]
    · simp [h, ih, Ne.symm h]

theorem hasMember_iff {name : String} {members : List (String × Value)} :
    hasMember name members = true ↔ name ∈ members.map Prod.fst := by
  induction members with
  | nil => simp [hasMember]
  | cons m rest ih =>
    simp only [hasMember, List.any_cons, Bool.or_eq_true, decide_eq_true_eq, List.map_cons,
      List.mem_cons] at ih ⊢
    rw [ih, eq_comm]

end Value

end GuidedLab.Json
