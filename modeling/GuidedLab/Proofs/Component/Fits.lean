import GuidedLab.Proofs.Component.Saved

/-!
# Which archives a component takes back

An archive fits a component if it holds a state, if what it holds as the path of a recording is a path
below the run, and if for each item of a sheet it holds an archive that fits the item (`Fits`). Texts
never stand in the way: an answer or a path that is missing or is not a text counts as empty.

`misfits` goes through a component and its items in order and collects everything in an archive that
does not fit. It is empty exactly for an archive that fits (`misfits_eq_nil_iff`), and its first fault is
the one that ends a restoring (`restoredFrom_snd`). Without a fault every part takes what is in the
archive below its positions (`takes_of_restoredFrom`).
-/

namespace GuidedLab

/-- The outcome of a row of checks is the first fault they found. -/
def Fault.firstOf : List Fault → Except Fault Unit
  | [] => .ok ()
  | f :: _ => .error f

theorem Fault.firstOf_eq_ok_iff {faults : List Fault} : firstOf faults = .ok () ↔ faults = [] := by
  cases faults with
  | nil => exact ⟨fun _ => rfl, fun _ => rfl⟩
  | cons f faults => exact ⟨nofun, nofun⟩

theorem Fault.firstOf_eq_error_iff {faults : List Fault} {f : Fault} :
    firstOf faults = .error f ↔ faults.head? = some f := by
  cases faults with
  | nil => exact ⟨nofun, nofun⟩
  | cons g faults => simp [firstOf]

/-- The archive below a row of positions. -/
def Archive.below? (a : Archive) : List Nat → Option Archive
  | [] => some a
  | i :: p => (a.nested? (Nat.repr i)).bind fun b => b.below? p

/-- The codes of states are the integers from that of an inactive component to the highest branch. -/
theorem State.ofCode?_isSome_iff {n : Int} :
    (State.ofCode? n).isSome = true ↔ -2 ≤ n ∧ n < UInt32.size := by
  have hsize : (UInt32.size : Int) = 4294967296 := rfl
  rw [ofCode?, hsize]
  split
  · next h => simp [h]
  · split
    · next h => simp [h]
    · split
      · simp only [Option.isSome_some, true_iff]
        omega
      · simp only [Option.isSome_none, Bool.false_eq_true, false_iff]
        omega

/-- What an archive holds as a state is the code of one. -/
def Archive.HoldsState (a : Archive) : Prop :=
  ∃ n, a.int? State.key = some n ∧ -2 ≤ n.toInt ∧ n.toInt < UInt32.size

namespace Element

/-- What an archive holds as the path of a recording is nothing or lies below the run. -/
def Fits (a : Archive) : Element → Prop
  | .experiment _ =>
    ∀ s, a.text? Experiment.pathKey = some s → s = "" ∨ (Path.mk s).isContained = true
  | _ => True

/-- What does not fit an element in the component of a name. -/
def misfits (name : String) (a : Archive) : Element → List Fault
  | .experiment _ =>
    match a.text? Experiment.pathKey with
    | none => []
    | some s =>
      if s = "" ∨ (Path.mk s).isContained = true then []
      else [.invalidValue name Experiment.pathKey]
  | _ => []

theorem misfits_eq_nil_iff {name : String} {a : Archive} {e : Element} :
    e.misfits name a = [] ↔ e.Fits a := by
  cases e with
  | experiment x =>
      rw [misfits, Fits]
      cases a.text? Experiment.pathKey with
      | none => exact ⟨fun _ => nofun, fun _ => rfl⟩
      | some s =>
          by_cases h : s = "" ∨ (Path.mk s).isContained = true
          · simp [h]
          · simp [h]
  | _ => exact ⟨fun _ => trivial, fun _ => rfl⟩

theorem all_savedPath?_iff {a : Archive} {x : Experiment} :
    (savedPath? a).all RawPath.isContained = true ↔ (Element.experiment x).Fits a := by
  rw [savedPath?, Fits]
  cases a.text? Experiment.pathKey with
  | none =>
      refine ⟨fun _ => ?_, fun _ => rfl⟩
      rintro s ⟨⟩
  | some s => by_cases h : s = "" <;> simp [Option.filter, h, RawPath.isContained_ofPath]

theorem savedPath?_eq (a : Archive) : savedPath? a =
    ((a.text? Experiment.pathKey).filter fun s => s ≠ "").map fun s => .ofPath ⟨s⟩ := by
  rw [savedPath?]
  cases a.text? Experiment.pathKey with
  | none => rfl
  | some s => by_cases h : s = "" <;> simp [Option.filter, h]

theorem misfits_of_not_fits {name : String} {a : Archive} {x : Experiment}
    (h : ¬ (Element.experiment x).Fits a) :
    (Element.experiment x).misfits name a = [.invalidValue name Experiment.pathKey] := by
  have hne : (Element.experiment x).misfits name a ≠ [] := fun he => h (misfits_eq_nil_iff.1 he)
  rw [misfits] at hne ⊢
  cases ht : a.text? Experiment.pathKey with
  | none =>
      rw [ht] at hne
      exact absurd rfl hne
  | some s =>
      rw [ht] at hne
      dsimp only at hne ⊢
      rw [if_neg fun hs => hne (if_pos hs)]

/-- An element is restored, or it has one misfit and that is told. -/
theorem restored?_cases (name : String) (a : Archive) (e : Element) :
    (∃ r, e.restored? name a = .ok r ∧ e.misfits name a = []) ∨
      ∃ f, e.restored? name a = .error f ∧ e.misfits name a = [f] := by
  cases e with
  | experiment x =>
      by_cases h : (Element.experiment x).Fits a
      · refine Or.inl ⟨.experiment { x with path := savedPath? a }, ?_, misfits_eq_nil_iff.2 h⟩
        rw [restored?, if_pos (all_savedPath?_iff.2 h)]
      · refine Or.inr ⟨.invalidValue name Experiment.pathKey, ?_, misfits_of_not_fits h⟩
        rw [restored?, if_neg fun hall => h (all_savedPath?_iff.1 hall)]
  | _ => exact Or.inl ⟨_, rfl, rfl⟩

end Element

namespace Component

mutual

/-- An archive holds what a component needs to be restored. -/
def Fits (a : Archive) : Component → Prop
  | .leaf _ _ element => a.HoldsState ∧ element.Fits a
  | .sheet _ _ _ items => a.HoldsState ∧ ItemsFit a 0 items

/-- An archive holds what the items from a position on need, each under its position. -/
def ItemsFit (a : Archive) (index : Nat) : List Component → Prop
  | [] => True
  | c :: rest =>
    (∃ b, a.nested? (Nat.repr index) = some b ∧ Fits b c) ∧ ItemsFit a (index + 1) rest

end

/-- What does not fit as the state of the component of a name. -/
def stateMisfits (name : String) (a : Archive) : List Fault :=
  match a.int? State.key with
  | none => [.missingKey name State.key]
  | some n =>
    if -2 ≤ n.toInt ∧ n.toInt < UInt32.size then [] else [.invalidValue name State.key]

mutual

/-- What does not fit a component: first in what it needs itself, then in its items in order. -/
def misfits (a : Archive) : Component → List Fault
  | .leaf name _ element => stateMisfits name a ++ element.misfits name a
  | .sheet name _ _ items => stateMisfits name a ++ itemsMisfits a 0 items

/-- What does not fit the items from a position on. -/
def itemsMisfits (a : Archive) (index : Nat) : List Component → List Fault
  | [] => []
  | c :: rest =>
    (match a.nested? (Nat.repr index) with
      | none => [.noSavedItem c.name index]
      | some b => misfits b c) ++ itemsMisfits a (index + 1) rest

end

theorem stateMisfits_eq_nil_iff {name : String} {a : Archive} :
    stateMisfits name a = [] ↔ a.HoldsState := by
  rw [stateMisfits, Archive.HoldsState]
  cases a.int? State.key with
  | none => simp
  | some n => simp

theorem itemsMisfits_eq_nil_iff {items : List Component}
    (each : ∀ c ∈ items, ∀ b, c.misfits b = [] ↔ c.Fits b) (a : Archive) (k : Nat) :
    itemsMisfits a k items = [] ↔ ItemsFit a k items := by
  induction items generalizing k with
  | nil => exact ⟨fun _ => trivial, fun _ => rfl⟩
  | cons c rest ih =>
      rw [itemsMisfits, ItemsFit, List.append_eq_nil_iff,
        ih (fun d hd => each d (List.mem_cons_of_mem _ hd))]
      cases a.nested? (Nat.repr k) with
      | none => simp
      | some b => simp [each c List.mem_cons_self b]

/-- There is nothing that does not fit exactly if the archive fits. -/
theorem misfits_eq_nil_iff {a : Archive} {c : Component} : c.misfits a = [] ↔ c.Fits a := by
  induction c using Component.induction generalizing a with
  | leaf name state element =>
      rw [misfits, Fits, List.append_eq_nil_iff, stateMisfits_eq_nil_iff,
        Element.misfits_eq_nil_iff]
  | sheet name state orientation items ih =>
      rw [misfits, Fits, List.append_eq_nil_iff, stateMisfits_eq_nil_iff,
        itemsMisfits_eq_nil_iff (fun c hc b => ih c hc) a 0]

/-- A saved state is read, or it does not fit and that is told. -/
theorem savedState_cases (name : String) (a : Archive) :
    (∃ n s, a.int? State.key = some n ∧ s.code = n.toInt ∧ savedState name a = .ok s ∧
        stateMisfits name a = []) ∨
      ∃ f, savedState name a = .error f ∧ stateMisfits name a = [f] := by
  rw [savedState, stateMisfits]
  cases a.int? State.key with
  | none => exact Or.inr ⟨_, rfl, rfl⟩
  | some n =>
      dsimp only
      have hcode := State.ofCode?_isSome_iff (n := n.toInt)
      cases hs : State.ofCode? n.toInt with
      | none =>
          rw [hs] at hcode
          exact Or.inr ⟨_, rfl, if_neg fun h => Bool.false_ne_true (hcode.2 h)⟩
      | some s =>
          rw [hs] at hcode
          exact Or.inl ⟨n, s, rfl, State.ofCode?_eq_some_iff.1 hs, rfl, if_pos (hcode.1 rfl)⟩

theorem itemsRestoredFrom_snd {items : List Component}
    (each : ∀ c ∈ items, ∀ b, (c.restoredFrom b).2 = Fault.firstOf (c.misfits b)) (a : Archive)
    (k : Nat) : (itemsRestoredFrom a k items).2 = Fault.firstOf (itemsMisfits a k items) := by
  induction items generalizing k with
  | nil => rfl
  | cons c rest ih =>
      have hrest := ih (fun d hd => each d (List.mem_cons_of_mem _ hd)) (k + 1)
      rw [itemsRestoredFrom, itemsMisfits]
      cases a.nested? (Nat.repr k) with
      | none => rfl
      | some b =>
          have hself := each c List.mem_cons_self b
          cases hr : c.restoredFrom b with
          | mk d r =>
              rw [hr] at hself
              have hself : r = Fault.firstOf (c.misfits b) := hself
              subst hself
              dsimp only
              rw [hr]
              cases c.misfits b with
              | nil => exact hrest
              | cons f faults => rfl

/-- A restoring ends with the first misfit, and it succeeds if there is none. -/
theorem restoredFrom_snd (a : Archive) (c : Component) :
    (c.restoredFrom a).2 = Fault.firstOf (c.misfits a) := by
  induction c using Component.induction generalizing a with
  | leaf name state element =>
      rw [restoredFrom, misfits]
      rcases savedState_cases name a with ⟨n, s, -, -, hs, hm⟩ | ⟨f, hf, hm⟩
      · rw [hs, hm, List.nil_append]
        rcases element.restored?_cases name a with ⟨r, hr, hm'⟩ | ⟨f, hf, hm'⟩
        · rw [hr, hm']
          rfl
        · rw [hf, hm']
          rfl
      · rw [hf, hm]
        rfl
  | sheet name state orientation items ih =>
      rw [restoredFrom, misfits]
      rcases savedState_cases name a with ⟨n, s, -, -, hs, hm⟩ | ⟨f, hf, hm⟩
      · rw [hs, hm, List.nil_append, ← itemsRestoredFrom_snd (fun c hc b => ih c hc b) a 0]
        dsimp only
        split <;> next h => rw [h]
      · rw [hf, hm]
        rfl

/-- What a component holds is what an archive holds of it. -/
structure Takes (a : Archive) (c : Component) : Prop where
  state : ∃ n, a.int? State.key = some n ∧ c.state.code = n.toInt
  answer : ∀ name s q, c = .leaf name s (.textQuestion q) →
    q.answer = (a.text? TextQuestion.answerKey).getD ""
  path : ∀ name s x, c = .leaf name s (.experiment x) →
    x.path = ((a.text? Experiment.pathKey).filter fun text => text ≠ "").map
      fun text => .ofPath ⟨text⟩

theorem takes_leaf {name : String} {a : Archive} {e r : Element} {s : State} {n : Int64}
    (code : a.int? State.key = some n) (state : s.code = n.toInt)
    (h : e.restored? name a = .ok r) : (Component.leaf name s r).Takes a where
  state := ⟨n, code, state⟩
  answer := by
    rintro name' s' q ⟨⟩
    cases e with
    | textQuestion q' =>
        cases h
        rfl
    | experiment x =>
        rw [Element.restored?] at h
        split at h <;> cases h
    | _ => cases h
  path := by
    rintro name' s' x ⟨⟩
    cases e with
    | experiment x' =>
        rw [Element.restored?] at h
        split at h
        · cases h
          exact Element.savedPath?_eq a
        · cases h
    | _ => cases h

/-- Restored items have each been restored from the archive under their position. -/
theorem exists_of_itemsRestoredFrom {a : Archive} {k : Nat} {items restored : List Component}
    (h : itemsRestoredFrom a k items = (restored, .ok ())) {j : Nat} {d : Component}
    (hd : restored[j]? = some d) :
    ∃ c b, items[j]? = some c ∧ a.nested? (Nat.repr (k + j)) = some b ∧
      c.restoredFrom b = (d, .ok ()) := by
  induction items generalizing k j restored with
  | nil =>
      cases h
      cases hd
  | cons c rest ih =>
      rw [itemsRestoredFrom] at h
      cases hb : a.nested? (Nat.repr k) with
      | none =>
          rw [hb] at h
          cases h
      | some b =>
          rw [hb] at h
          dsimp only at h
          split at h
          · cases h
          · next c' hc =>
              cases hr : itemsRestoredFrom a (k + 1) rest with
              | mk rest' r =>
                  rw [hr] at h
                  cases h
                  cases j with
                  | zero =>
                      cases hd
                      exact ⟨c, b, rfl, hb, hc⟩
                  | succ j =>
                      obtain ⟨e, b', he, hb', hr'⟩ := ih hr hd
                      rw [Nat.add_right_comm] at hb'
                      exact ⟨e, b', he, hb', hr'⟩

/-- In a restored component every part takes what the archive holds below its positions. -/
theorem takes_of_restoredFrom {a : Archive} {c d e : Component} {p : List Nat}
    (h : c.restoredFrom a = (d, .ok ())) (he : d.item? p = some e) :
    ∃ b, a.below? p = some b ∧ e.Takes b := by
  induction c using Component.induction generalizing a d p with
  | leaf name state element =>
      rw [restoredFrom] at h
      rcases savedState_cases name a with ⟨n, s, hn, hcode, hs, -⟩ | ⟨f, hf, -⟩
      · rw [hs] at h
        dsimp only at h
        split at h
        · cases h
        · next r hr =>
            cases h
            cases p with
            | nil =>
                rw [item?_nil] at he
                cases he
                exact ⟨a, rfl, takes_leaf hn hcode hr⟩
            | cons i p => cases he
      · rw [hf] at h
        cases h
  | sheet name state orientation items ih =>
      rw [restoredFrom] at h
      rcases savedState_cases name a with ⟨n, s, hn, hcode, hs, -⟩ | ⟨f, hf, -⟩
      · rw [hs] at h
        dsimp only at h
        split at h
        · cases h
        · next restored hr =>
            cases h
            cases p with
            | nil =>
                rw [item?_nil] at he
                cases he
                refine ⟨a, rfl, ⟨n, hn, hcode⟩, ?_, ?_⟩
                · rintro name' s' q ⟨⟩
                · rintro name' s' x ⟨⟩
            | cons i p =>
                obtain ⟨d, hd, he⟩ := item?_cons_eq_some_iff.1 he
                obtain ⟨c, b, hc, hb, hcd⟩ := exists_of_itemsRestoredFrom hr hd
                rw [Nat.zero_add] at hb
                obtain ⟨b', hb', htakes⟩ := ih c (List.mem_of_getElem? hc) hcd he
                exact ⟨b', by rw [Archive.below?, hb, Option.bind_some, hb'], htakes⟩
      · rw [hf] at h
        cases h

end Component

end GuidedLab
