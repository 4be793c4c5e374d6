import GuidedLab.Proofs.Script.Run
import GuidedLab.Proofs.Source.Described

/-!
# Numbers of questions

A sheet numbers its questions once, when it is made, and nothing that happens later touches the numbers
or the order of the items. So the plain and the text questions of every sheet carry the numbers from one
on, in the order of the items and whatever stands between them, at all times
(`Script.Made.numbersQuestions_after`).
-/

namespace GuidedLab

namespace Element

/-- The number of a question. -/
def number? : Element → Option UInt32
  | .question _ number => number
  | .textQuestion q => q.number
  | _ => none

variable {e e' : Element} {n : UInt32}

/-- A numbered element is a question with that number. -/
theorem numbered_of_withNumber? (h : e.withNumber? n = some e') :
    e'.isQuestion = true ∧ e'.number? = some n := by
  cases e <;> cases h <;> exact ⟨rfl, rfl⟩

theorem isQuestion_eq_false_of_withNumber? (h : e.withNumber? n = none) : e.isQuestion = false := by
  cases e with
  | question | textQuestion => cases h
  | _ => rfl

end Element

namespace Component

variable {c d : Component}

/-- The number of a question. -/
def number? : Component → Option UInt32
  | .leaf _ _ element => element.number?
  | .sheet .. => none

/-- The questions among items carry the numbers from a given one on, in their order and in 32 bits. -/
def AreNumbered (n : Nat) (items : List Component) : Prop :=
  (items.filter isQuestion).map number? =
    (List.range' n (items.countP isQuestion)).map fun k => some (.ofNat k)

/-- The questions among the items of a sheet carry the numbers from one on. -/
def NumbersQuestions (c : Component) : Prop := AreNumbered 1 c.items

theorem areNumbered_cons_of_question {n : Nat} {items : List Component} (h : c.isQuestion = true) :
    AreNumbered n (c :: items) ↔ c.number? = some (.ofNat n) ∧ AreNumbered (n + 1) items := by
  rw [AreNumbered, List.filter_cons_of_pos h, List.countP_cons_of_pos h, List.range'_succ,
    List.map_cons, List.map_cons, List.cons.injEq]
  rfl

theorem areNumbered_cons_of_other {n : Nat} {items : List Component} (h : c.isQuestion = false) :
    AreNumbered n (c :: items) ↔ AreNumbered n items := by
  have hother : ¬ c.isQuestion = true := Bool.eq_false_iff.1 h
  rw [AreNumbered, List.filter_cons_of_neg hother, List.countP_cons_of_neg hother]
  rfl

/-- Numbering gives the questions the numbers after a given one. -/
theorem areNumbered_numbered (n : Nat) (items : List Component) :
    AreNumbered (n + 1) (numbered (.ofNat n) items) := by
  induction items generalizing n with
  | nil => rfl
  | cons c rest ih =>
      have hnext : UInt32.ofNat n + 1 = .ofNat (n + 1) := (UInt32.ofNat_add n 1).symm
      cases c with
      | leaf name state element =>
          rw [numbered, hnext]
          split
          · next element' h =>
              obtain ⟨hquestion, hnumber⟩ := Element.numbered_of_withNumber? h
              rw [areNumbered_cons_of_question (c := .leaf name state element') hquestion]
              exact ⟨hnumber, ih (n + 1)⟩
          · next h =>
              have hother := Element.isQuestion_eq_false_of_withNumber? h
              rw [areNumbered_cons_of_other (c := .leaf name state element) hother]
              exact ih n
      | sheet name state orientation items =>
          rw [numbered_sheet_cons, areNumbered_cons_of_other rfl]
          exact ih n

/-- A new sheet numbers its questions. -/
theorem numbersQuestions_ofItems (name : String) (orientation : Orientation)
    (items : List Component) : (ofItems name orientation items).NumbersQuestions :=
  areNumbered_numbered 0 items

theorem Built.every_numbersQuestions (h : c.Built) : c.Every NumbersQuestions := by
  induction h with
  | sheet name orientation items _ ih =>
      refine every_sheet.2 ⟨numbersQuestions_ofItems name orientation items, ?_⟩
      intro c hc
      rcases mem_numbered hc with hm | ⟨name, state, element, element', k, -, -, rfl⟩
      · exact ih c hm
      · exact every_leaf.2 rfl
  | _ => exact every_leaf.2 rfl

theorem isQuestion_withoutChanges (c : Component) : c.withoutChanges.isQuestion = c.isQuestion := by
  cases c with
  | leaf name state element => cases element <;> rfl
  | sheet name state orientation items => rfl

theorem number?_withoutChanges (c : Component) : c.withoutChanges.number? = c.number? := by
  cases c with
  | leaf name state element => cases element <;> rfl
  | sheet name state orientation items => rfl

/-- Numbers and the order of items last. -/
theorem numbersQuestions_withoutChanges (c : Component) :
    c.withoutChanges.NumbersQuestions ↔ c.NumbersQuestions := by
  have hquestion : isQuestion ∘ withoutChanges = isQuestion := funext isQuestion_withoutChanges
  have hnumber : number? ∘ withoutChanges = number? := funext number?_withoutChanges
  have hitems : c.withoutChanges.items = c.items.map withoutChanges := items_erased _ c
  rw [NumbersQuestions, NumbersQuestions, AreNumbered, AreNumbered, hitems, List.filter_map,
    List.map_map, List.countP_map, hquestion, hnumber]

end Component

/-- At all times of a run, every sheet has numbered its questions. -/
theorem Script.Made.numbersQuestions_after {s : Script} (made : s.Made) (calls : List Script.Call) :
    ∀ c ∈ (s.after calls).tree.components, c.Every Component.NumbersQuestions := by
  intro c hc
  obtain ⟨d, hd, hsame⟩ :=
    Tree.exists_mem_components_of_withoutChanges_eq (Script.withoutChanges_after s calls) hc
  apply (made.built d hd).every_numbersQuestions.of_withoutChanges_eq hsame
  intro e e' hsame hnumbers
  rw [← Component.numbersQuestions_withoutChanges, hsame]
  exact e'.numbersQuestions_withoutChanges.2 hnumbers

end GuidedLab
