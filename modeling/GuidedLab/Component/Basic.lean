import GuidedLab.Component.Element
import GuidedLab.Fault

/-!
# Components

A component has a name and a state and is either a single element or a sheet of items, which are
components again. The type is nested through the list of items, so what runs over a whole component
comes as a pair of functions, one for a component and one for its items, and proofs go by
`Component.induction`, whose case for a sheet assumes the statement of every item. Navigation is
different: `item?` recurses on the positions alone.

A new sheet numbers its plain and its text questions in the order of its items, each sheet for
itself, and takes the state of its items: done when it has an item and all are done (`allDone`).
-/

namespace GuidedLab

/-- How the items of a sheet are laid out. -/
inductive Orientation where
  | vertical
  | horizontal
deriving DecidableEq, Repr

/-- A part of a script: an element, or a sheet of parts. -/
inductive Component where
  | leaf (name : String) (state : State) (element : Element)
  | sheet (name : String) (state : State) (orientation : Orientation) (items : List Component)
deriving Repr

namespace Component

instance : Inhabited Component := ⟨.leaf "" default .export⟩

mutual

/-- Equality of components is decided part by part. -/
def decEq : (c d : Component) → Decidable (c = d)
  | .leaf n s e, .leaf n' s' e' =>
    decidable_of_iff (n = n' ∧ s = s' ∧ e = e') (by simp)
  | .leaf .., .sheet .. => .isFalse nofun
  | .sheet .., .leaf .. => .isFalse nofun
  | .sheet n s o items, .sheet n' s' o' items' =>
    match itemsDecEq items items' with
    | .isTrue h => decidable_of_iff (n = n' ∧ s = s' ∧ o = o') (by simp [h])
    | .isFalse h => .isFalse fun e => h (by cases e; rfl)

/-- Equality of items is decided item by item. -/
def itemsDecEq : (cs ds : List Component) → Decidable (cs = ds)
  | [], [] => .isTrue rfl
  | [], _ :: _ => .isFalse nofun
  | _ :: _, [] => .isFalse nofun
  | c :: cs, d :: ds =>
    match decEq c d with
    | .isFalse h => .isFalse fun e => h (List.cons.inj e).1
    | .isTrue h =>
      match itemsDecEq cs ds with
      | .isTrue hs => .isTrue (by rw [h, hs])
      | .isFalse hs => .isFalse fun e => hs (List.cons.inj e).2

end

instance : DecidableEq Component := decEq

/-- A statement holds of every component if it holds of every element, and of a sheet whenever it
holds of all its items. -/
@[elab_as_elim]
theorem induction {motive : Component → Prop}
    (leaf : ∀ name state element, motive (.leaf name state element))
    (sheet : ∀ name state orientation items, (∀ c ∈ items, motive c) →
      motive (.sheet name state orientation items)) (c : Component) : motive c :=
  Component.rec (motive_1 := motive) (motive_2 := fun cs => ∀ c ∈ cs, motive c)
    leaf sheet (fun _ h => nomatch h)
    (fun _ _ hc hcs _ h => (List.mem_cons.1 h).elim (fun e => e ▸ hc) (hcs _)) c

/-- The name. -/
def name : Component → String
  | .leaf name .. => name
  | .sheet name .. => name

/-- The state. -/
def state : Component → State
  | .leaf _ state _ => state
  | .sheet _ state .. => state

/-- The items of a sheet; an element has none. -/
def items : Component → List Component
  | .leaf .. => []
  | .sheet _ _ _ items => items

/-- The name of the kind. -/
def label : Component → String
  | .leaf _ _ element => element.label
  | .sheet .. => "sheet"

/-- The component in another state. -/
def withState (s : State) : Component → Component
  | .leaf name _ element => .leaf name s element
  | .sheet name _ orientation items => .sheet name s orientation items

/-- At least one item, and all of them done. -/
def allDone (items : List Component) : Bool :=
  !items.isEmpty && items.all fun c => c.state.isDone

/-- The items with their questions numbered, from the number after a given one. Numbers have 32 bits, and
after the highest one comes zero. -/
def numbered (n : UInt32) : List Component → List Component
  | [] => []
  | .leaf name state element :: rest =>
    match element.withNumber? (n + 1) with
    | some element => .leaf name state element :: numbered (n + 1) rest
    | none => .leaf name state element :: numbered n rest
  | c :: rest => c :: numbered n rest

/-- A new component of one element. -/
def ofElement (name : String) (element : Element) : Component :=
  .leaf name element.initialState element

/-- A new sheet. -/
def ofItems (name : String) (orientation : Orientation) (items : List Component) : Component :=
  .sheet name (State.ofAllDone (allDone items)) orientation (numbered 0 items)

/-- A new text. -/
def ofText (name text : String) : Component := ofElement name (.text .normal text)

/-- A new header. -/
def ofHeader (name text : String) : Component := ofElement name (.text .header text)

/-- A new plain question. -/
def ofQuestion (name text : String) : Component := ofElement name (.question text none)

/-- A new checkbox. -/
def ofCheckbox (name text : String) : Component := ofElement name (.checkbox text)

/-- A new text question without an answer. -/
def ofTextQuestion (name text : String) (optional : Bool) : Component :=
  ofElement name (.textQuestion ⟨text, "", optional, none⟩)

/-- A new experiment without a recording. -/
def ofExperiment (name : String) (sensor : Sensor) (description : String) : Component :=
  ofElement name (.experiment ⟨sensor, description, none⟩)

/-- A new graph. -/
def ofGraph (name : String) (graph : Graph) : Component := ofElement name (.graph graph)

/-- A new export. -/
def ofExport (name : String) : Component := ofElement name .export

/-- The component below a row of positions; no position leads to the component itself. -/
def item? : Component → List Nat → Option Component
  | c, [] => some c
  | c, i :: rest => c.items[i]?.bind fun d => d.item? rest

mutual

/-- The first graph in a component that is bound to no experiment, by its name. -/
def unboundGraph? : Component → Option String
  | .leaf name _ (.graph g) => if g.experiment.isNone then some name else none
  | .leaf .. => none
  | .sheet _ _ _ items => firstUnboundGraph? items

/-- The first graph among items that is bound to no experiment. -/
def firstUnboundGraph? : List Component → Option String
  | [] => none
  | c :: rest => (unboundGraph? c).or (firstUnboundGraph? rest)

end

/-- Items are well configured when all their graphs are bound. -/
def checkItems (items : List Component) : Except Fault Unit :=
  match firstUnboundGraph? items with
  | some name => .error (.graphWithoutExperiment name)
  | none => .ok ()

/-- A component is well configured when all its graphs are bound. -/
def check (c : Component) : Except Fault Unit :=
  checkItems [c]

@[simp] theorem name_withState (s : State) (c : Component) : (c.withState s).name = c.name := by
  cases c <;> rfl

@[simp] theorem state_withState (s : State) (c : Component) : (c.withState s).state = s := by
  cases c <;> rfl

@[simp] theorem items_withState (s : State) (c : Component) : (c.withState s).items = c.items := by
  cases c <;> rfl

@[simp] theorem label_withState (s : State) (c : Component) : (c.withState s).label = c.label := by
  cases c <;> rfl

@[simp] theorem withState_state (c : Component) : c.withState c.state = c := by
  cases c <;> rfl

@[simp] theorem item?_nil (c : Component) : c.item? [] = some c := by
  cases c <;> rfl

theorem item?_cons (c : Component) (i : Nat) (p : List Nat) :
    c.item? (i :: p) = c.items[i]?.bind fun d => d.item? p := by
  cases c <;> rfl

/-- Going down two rows of positions is going down one after the other. -/
theorem item?_append (c : Component) (p q : List Nat) :
    c.item? (p ++ q) = (c.item? p).bind fun d => d.item? q := by
  induction p generalizing c with
  | nil => simp
  | cons i p ih =>
    rw [List.cons_append, item?_cons, item?_cons]
    cases c.items[i]? with
    | none => rfl
    | some d => exact ih d

@[simp] theorem numbered_nil (n : UInt32) : numbered n [] = [] := rfl

/-- Numbering keeps the number of items. -/
@[simp] theorem length_numbered (n : UInt32) (items : List Component) :
    (numbered n items).length = items.length := by
  induction items generalizing n with
  | nil => rfl
  | cons c rest ih =>
    cases c with
    | leaf name state element =>
      rw [numbered]
      split <;> simp [ih]
    | sheet name state orientation items => simp [numbered, ih]

theorem allDone_eq_true_iff {items : List Component} :
    allDone items = true ↔ items ≠ [] ∧ ∀ c ∈ items, c.state.isDone = true := by
  simp [allDone]

end Component

end GuidedLab
