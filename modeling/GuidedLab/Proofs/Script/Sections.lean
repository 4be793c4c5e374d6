import Mathlib.Data.List.Forall2
import GuidedLab.Proofs.Script.Numbers
import GuidedLab.Proofs.Script.Report
import GuidedLab.Proofs.Tree.Walk

/-!
# The sections of a report

The report of a script has a section for each of its sheets and no other, and the sections are in the
order of the sheets' addresses (`Script.sections_in_order`). A section has an entry for each of the
sheet's own questions and checkboxes, in the order of the items, and the questions among the entries are
numbered from one on (`Report.Section.Tells`). What is written of a sheet is told by the sheet alone,
with the questions counted anew (`Report.sheetText`).

Sections and numbers come from different walks over the script at different times, the numbers being given
when a sheet is made. They agree because nothing in between touches either.
-/

namespace GuidedLab

namespace Component

instance : DecidablePred IsElement := fun c => by
  cases c with
  | leaf => exact .isTrue trivial
  | sheet => exact .isFalse id

/-- Whether a component asks something of a learner that is shown in a report: a plain question, a text
question or a checkbox. -/
def isAsked : Component → Bool
  | .leaf _ _ (.question ..) | .leaf _ _ (.textQuestion _) | .leaf _ _ (.checkbox _) => true
  | _ => false

end Component

namespace Report

open Component (IsElement isAsked)

variable {c : Component} {items : List Component}

namespace Entry

/-- Whether an entry is for a plain or a text question. -/
def isQuestion : Entry → Bool
  | .question .. | .textQuestion .. => true
  | .checkbox .. => false

/-- The number that an entry carries. -/
def number? : Entry → Option UInt32
  | .question number _ | .textQuestion number .. => number
  | .checkbox .. => none

/-- An entry tells of an item what is asked there, what was answered and whether it is ticked. Nothing is
said of the number. -/
inductive Tells : Entry → Component → Prop where
  | question (name : String) (state : State) (text : String) (number shown : Option UInt32) :
      Tells (.question shown text) (.leaf name state (.question text number))
  | textQuestion (name : String) (state : State) (q : TextQuestion) (shown : Option UInt32) :
      Tells (.textQuestion shown q.text q.answer) (.leaf name state (.textQuestion q))
  | checkbox (name : String) (state : State) (text : String) :
      Tells (.checkbox text state.isDone) (.leaf name state (.checkbox text))

end Entry

/-- A section tells of a sheet: what it asks, item by item, with its questions numbered from one on and
nothing else numbered. The numbers are kept in 32 bits, which is enough for every sheet with fewer
questions than that. -/
structure Section.Tells (sec : Section) (sheet : Component) : Prop where
  name : sec.name = sheet.name
  entries : List.Forall₂ Entry.Tells sec.entries (sheet.items.filter isAsked)
  numbers : (sec.entries.filter Entry.isQuestion).map Entry.number? =
    (List.range' 1 (sec.entries.countP Entry.isQuestion)).map fun n => some (.ofNat n)
  counted : sec.entries.countP Entry.isQuestion < UInt32.size →
    (sec.entries.filter Entry.isQuestion).map (fun entry => entry.number?.map UInt32.toNat) =
      (List.range' 1 (sec.entries.countP Entry.isQuestion)).map some
  unnumbered : ∀ entry ∈ sec.entries, entry.isQuestion = false → entry.number? = none

/-! ### Entries -/

/-- Either an item is asked and has an entry that tells of it, with the item's number, or it is not
asked and has none. -/
theorem entry?_cases (c : Component) :
    (∃ entry, entry? c = some entry ∧ c.isAsked = true ∧ entry.Tells c ∧
      entry.isQuestion = c.isQuestion ∧ entry.number? = c.number?) ∨
    ( entry? c = none ∧ c.isAsked = false ∧ c.isQuestion = false) := by
  cases c with
  | leaf name state element =>
      cases element with
      | question text number =>
          exact Or.inl ⟨_, rfl, rfl, .question name state text number number, rfl, rfl⟩
      | textQuestion q => exact Or.inl ⟨_, rfl, rfl, .textQuestion name state q q.number, rfl, rfl⟩
      | checkbox text => exact Or.inl ⟨_, rfl, rfl, .checkbox name state text, rfl, rfl⟩
      | _ => exact Or.inr ⟨rfl, rfl, rfl⟩
  | sheet name state orientation items => exact Or.inr ⟨rfl, rfl, rfl⟩

/-- The entries of items tell of those that are asked, in their order. -/
theorem tells_entries (items : List Component) :
    List.Forall₂ Entry.Tells (items.filterMap entry?) (items.filter isAsked) := by
  induction items with
  | nil => exact .nil
  | cons c rest ih =>
      rcases entry?_cases c with ⟨entry, hentry, hasked, htells, -, -⟩ | ⟨hentry, hasked, -⟩
      · rw [List.filterMap_cons_some hentry, List.filter_cons_of_pos hasked]
        exact .cons htells ih
      · rw [List.filterMap_cons_none hentry,
          List.filter_cons_of_neg (by rw [hasked]; exact Bool.false_ne_true)]
        exact ih

/-- The questions among the entries of items carry the numbers of the questions among the items. -/
theorem numbers_entries (items : List Component) :
    ((items.filterMap entry?).filter Entry.isQuestion).map Entry.number? =
      (items.filter Component.isQuestion).map Component.number? := by
  induction items with
  | nil => rfl
  | cons c rest ih =>
      rcases entry?_cases c with ⟨entry, hentry, -, -, hquestion, hnumber⟩ | ⟨hentry, -, hquestion⟩
      · rw [List.filterMap_cons_some hentry, List.filter_cons, List.filter_cons, hquestion]
        by_cases h : c.isQuestion = true
        · rw [if_pos h, if_pos h, List.map_cons, List.map_cons, ih, hnumber]
        · rw [if_neg h, if_neg h, ih]
      · rw [List.filterMap_cons_none hentry, ih,
          List.filter_cons_of_neg (by rw [hquestion]; exact Bool.false_ne_true)]

/-! ### Sections -/

/-- The section of a sheet. -/
def Section.ofSheet (sheet : Component) : Section := ⟨sheet.name, sheet.items.filterMap entry?⟩

/-- Numbers that fit into 32 bits are the numbers that were counted. -/
theorem map_toNat_numbers {k : Nat} (fits : k < UInt32.size) :
    (List.range' 1 k).map (fun n => (some (UInt32.ofNat n)).map UInt32.toNat) =
      (List.range' 1 k).map some := by
  apply List.map_congr_left
  intro n hn
  rw [List.mem_range'_1] at hn
  rw [Option.map_some, UInt32.toNat_ofNat_of_lt' (by omega)]

/-- The section of a sheet that has numbered its questions tells of it. -/
theorem Section.tells_ofSheet {sheet : Component} (h : sheet.NumbersQuestions) :
    (Section.ofSheet sheet).Tells sheet := by
  have hentries := numbers_entries sheet.items
  have hcount : (sheet.items.filterMap entry?).countP Entry.isQuestion =
      sheet.items.countP Component.isQuestion := by
    have hlength := congrArg List.length hentries
    rwa [List.length_map, List.length_map, ← List.countP_eq_length_filter,
      ← List.countP_eq_length_filter] at hlength
  have hnumbers : ((sheet.items.filterMap entry?).filter Entry.isQuestion).map Entry.number? =
      (List.range' 1 ((sheet.items.filterMap entry?).countP Entry.isQuestion)).map
        fun n => some (.ofNat n) := by
    rw [hentries, hcount]
    exact h
  constructor
  · rfl
  · exact tells_entries sheet.items
  · exact hnumbers
  · intro fits
    have hcounted := congrArg (List.map (Option.map UInt32.toNat)) hnumbers
    rw [List.map_map, List.map_map] at hcounted
    exact hcounted.trans (map_toNat_numbers fits)
  · intro entry _ hother
    cases entry with
    | checkbox => rfl
    | question | textQuestion => cases hother

/-! ### What is written -/

/-- What is written of items, one text for each that is asked, where the next question has a number. -/
def itemTexts (n : Nat) : List Component → List String
  | [] => []
  | .leaf _ _ (.question text _) :: rest =>
    ("\n**Q" ++ Nat.repr (n % UInt32.size) ++ ".** " ++ text ++ "\n") :: itemTexts (n + 1) rest
  | .leaf _ _ (.textQuestion q) :: rest =>
    ("\n**Q" ++ Nat.repr (n % UInt32.size) ++ ".** " ++ q.text ++ "\n\n> " ++
      (if q.answer = "" then "_(no answer)_" else q.answer) ++ "\n") :: itemTexts (n + 1) rest
  | .leaf _ state (.checkbox text) :: rest =>
    ("\n- [" ++ (if state.isDone then "x" else " ") ++ "] " ++ text ++ "\n") :: itemTexts n rest
  | _ :: rest => itemTexts n rest

/-- What is written of a sheet: its name as a heading, and then its items, or that it asks nothing. -/
def sheetText (sheet : Component) : String :=
  "\n## " ++ sheet.name ++ "\n" ++
    (if sheet.items.any isAsked then "".intercalate (itemTexts 1 sheet.items)
      else "\n_No questions on this page._\n")

theorem text_question (n : Nat) (text : String) :
    (Entry.question (some (.ofNat n)) text).text =
      "\n**Q" ++ Nat.repr (n % UInt32.size) ++ ".** " ++ text ++ "\n" := by
  show "\n" ++ ("**Q" ++ Nat.repr (UInt32.ofNat n).toNat ++ ".** " ++ text ++ "\n") = _
  rw [UInt32.toNat_ofNat']
  simp only [← String.append_assoc]
  rfl

theorem text_textQuestion (n : Nat) (text answer : String) :
    (Entry.textQuestion (some (.ofNat n)) text answer).text =
      "\n**Q" ++ Nat.repr (n % UInt32.size) ++ ".** " ++ text ++ "\n\n> " ++
        (if answer = "" then "_(no answer)_" else answer) ++ "\n" := by
  show (Entry.question (some (.ofNat n)) text).text ++ "\n" ++
    ("> " ++ (if answer.isEmpty then "_(no answer)_" else answer) ++ "\n") = _
  rw [text_question]
  simp only [String.append_assoc, String.isEmpty_iff]
  rfl

/-- The entries of items are written as the items are, with the questions counted anew. -/
theorem map_text_entries {n : Nat} (h : Component.AreNumbered n items) :
    (items.filterMap entry?).map Entry.text = itemTexts n items := by
  induction items generalizing n with
  | nil => rfl
  | cons c rest ih =>
      cases c with
      | leaf name state element =>
          cases element with
          | question text number =>
              obtain ⟨hnumber, hrest⟩ := (Component.areNumbered_cons_of_question rfl).1 h
              obtain rfl : number = some (.ofNat n) := hnumber
              rw [itemTexts, ← ih hrest, ← text_question]
              rfl
          | textQuestion q =>
              obtain ⟨hnumber, hrest⟩ := (Component.areNumbered_cons_of_question rfl).1 h
              have hnumber : q.number = some (.ofNat n) := hnumber
              rw [itemTexts, ← ih hrest, ← text_textQuestion, ← hnumber]
              rfl
          | checkbox text =>
              have hrest := (Component.areNumbered_cons_of_other rfl).1 h
              rw [itemTexts, ← ih hrest]
              rfl
          | _ =>
              have hrest := (Component.areNumbered_cons_of_other rfl).1 h
              exact ih hrest
      | sheet name state orientation inner =>
          have hrest := (Component.areNumbered_cons_of_other rfl).1 h
          exact ih hrest

/-- A sheet has entries if it asks something. -/
theorem isEmpty_entries (items : List Component) :
    (items.filterMap entry?).isEmpty = !items.any isAsked := by
  induction items with
  | nil => rfl
  | cons c rest ih =>
      rw [List.any_cons]
      rcases entry?_cases c with ⟨entry, hentry, hasked, -⟩ | ⟨hentry, hasked, -⟩
      · rw [List.filterMap_cons_some hentry, hasked]
        rfl
      · rw [List.filterMap_cons_none hentry, hasked, ih, Bool.false_or]

/-- The section of a sheet that has numbered its questions is written as the sheet is. -/
theorem text_ofSheet {sheet : Component} (h : sheet.NumbersQuestions) :
    (Section.ofSheet sheet).text = sheetText sheet := by
  rw [Section.text, sheetText, Section.ofSheet, isEmpty_entries, map_text_entries h]
  cases sheet.items.any isAsked <;> rfl

/-- The sections of a component are those of the sheets that are met on a walk. -/
theorem sections_eq_map_ofSheet (c : Component) :
    sections c = ((c.walk.map Prod.snd).filter fun d => ¬ d.IsElement).map Section.ofSheet := by
  induction c using Component.induction with
  | leaf name state element => rfl
  | sheet name state orientation items ih =>
      have hitems : sectionsOfItems items = ((items.flatMap fun c => c.walk.map Prod.snd).filter
          fun d => ¬ d.IsElement).map Section.ofSheet := by
        rw [sectionsOfItems_eq_flatten, List.filter_flatMap, List.map_flatMap, ← List.flatMap_def]
        exact List.flatMap_congr ih
      rw [sections, hitems, Component.map_snd_walk_sheet, List.filter_cons_of_pos (by exact rfl),
        List.map_cons]
      rfl

end Report

namespace Script

variable {fresh : Script}

/-- The sections of a report are those of the sheets that are met on a walk through the tree. -/
theorem sections_eq_map_walk (s : Script) :
    s.sections =
      (s.tree.walk.filter fun part => ¬ part.2.IsElement).map fun part => .ofSheet part.2 := by
  have hwalk : s.sections =
      ((s.tree.walk.map Prod.snd).filter fun d => ¬ d.IsElement).map Report.Section.ofSheet := by
    rw [sections, Report.sectionsOfItems_eq_flatten, ← List.flatMap_def, Tree.map_snd_walk,
      List.filter_flatMap, List.map_flatMap]
    exact List.flatMap_congr fun c _ => Report.sections_eq_map_ofSheet c
  rw [hwalk, List.filter_map, List.map_map]
  rfl

/-- At all times of a run, the sections of the report are the sheets of the script, each once: page by
page in pre-order, a sheet before the sheets in it and these in the order of the items. Each section
tells of its sheet, and each numbers its questions from one on. The report is the title and then, sheet
by sheet, what is written of the sheet. -/
theorem sections_in_order (made : fresh.Made) (calls : List Call) :
    ∃ sheets : List (Address × Component),
      (∀ a c, (a, c) ∈ sheets ↔ (fresh.after calls).tree.at? a = some c ∧ ¬ c.IsElement) ∧
      (sheets.map Prod.fst).Nodup ∧
      sheets.Pairwise (fun x y => (fresh.after calls).tree.Precedes x.1 y.1) ∧
      List.Forall₂ (fun sec sheet => sec.Tells sheet.2) (fresh.after calls).sections sheets ∧
      (fresh.after calls).report = "# " ++ fresh.title ++ "\n" ++
        "".intercalate (sheets.map fun sheet => Report.sheetText sheet.2) := by
  have hnumbered : ∀ part ∈ (fresh.after calls).tree.walk, part.2.NumbersQuestions := by
    intro ⟨a, c⟩ h
    obtain ⟨page, hpage, hc⟩ := Option.bind_eq_some_iff.1 (Tree.mem_walk_iff.1 h)
    exact made.numbersQuestions_after calls page (Tree.mem_components_iff.2 ⟨_, hpage⟩) _ _ hc
  have hordered := (fresh.after calls).tree.pairwise_walk.filter fun part => ¬ part.2.IsElement
  refine ⟨(fresh.after calls).tree.walk.filter fun part => ¬ part.2.IsElement, ?_, ?_, hordered, ?_, ?_⟩
  · intro a c
    rw [List.mem_filter, Tree.mem_walk_iff, decide_eq_true_eq]
  · rw [List.Nodup, List.pairwise_map]
    exact hordered.imp Tree.Precedes.ne
  · rw [sections_eq_map_walk, List.forall₂_map_left_iff, List.forall₂_same]
    exact fun part h => Report.Section.tells_ofSheet (hnumbered part (List.mem_filter.1 h).1)
  · rw [report, title_after, sections_eq_map_walk, List.map_map]
    congr 2
    exact List.map_congr_left fun part h =>
      Report.text_ofSheet (hnumbered part (List.mem_filter.1 h).1)

/-- A script with one page of questions and a sheet of more between them. -/
def questionnaire : Script :=
  .new "Free fall" (.new (.ofItems "drop" .vertical
    [.ofQuestion "look" "Look at the ball.",
      .ofItems "details" .vertical
        [.ofTextQuestion "time" "How long does it fall?" false, .ofCheckbox "sure" "Sure?"],
      .ofText "hint" "It is a small ball.", .ofTextQuestion "height" "How far?" true]))

theorem made_questionnaire : questionnaire.Made := by
  have hdetails : ∀ c ∈ [Component.ofTextQuestion "time" "How long does it fall?" false,
      .ofCheckbox "sure" "Sure?"], c.Built := by
    simp only [List.forall_mem_cons]
    exact ⟨.textQuestion _ _ _, .checkbox _ _, List.forall_mem_nil _⟩
  apply Made.constructed
  intro c hc
  rw [List.mem_singleton.1 hc]
  apply Component.Built.sheet
  simp only [List.forall_mem_cons]
  exact ⟨.question _ _, .sheet _ _ _ hdetails, .text _ _, .textQuestion _ _ _,
    List.forall_mem_nil _⟩

/-- The question in the inner sheet is answered and the checkbox ticked. -/
def filledRun : List Call :=
  [.interact ⟨0, [1, 0]⟩ (.answer "0.4 s"), .interact ⟨0, [1, 1]⟩ (.check true)]

/-- The inner sheet starts again at one, and the hint and the inner sheet take no number. -/
theorem sections_in_order_questionnaire :
    (questionnaire.after filledRun).sections =
      [⟨"drop", [.question (some 1) "Look at the ball.", .textQuestion (some 2) "How far?" ""]⟩,
        ⟨"details", [.textQuestion (some 1) "How long does it fall?" "0.4 s",
          .checkbox "Sure?" true]⟩] ∧
      (questionnaire.after filledRun).report =
        "# Free fall\n\n## drop\n\n**Q1.** Look at the ball.\n\n**Q2.** How far?\n" ++
          "\n> _(no answer)_\n\n## details\n\n**Q1.** How long does it fall?\n\n> 0.4 s\n" ++
          "\n- [x] Sure?\n" ∧
      ∃ sheets : List (Address × Component), sheets.length = 2 ∧
        (∃ c, (⟨0, [1]⟩, c) ∈ sheets) ∧
        List.Forall₂ (fun sec sheet => sec.Tells sheet.2) (questionnaire.after filledRun).sections
          sheets ∧
        (questionnaire.after filledRun).report = "# " ++ questionnaire.title ++ "\n" ++
          "".intercalate (sheets.map fun sheet => Report.sheetText sheet.2) := by
  obtain ⟨sheets, hmem, -, -, htells, hreport⟩ := sections_in_order made_questionnaire filledRun
  have hlength : (questionnaire.after filledRun).sections.length = 2 := by decide +kernel
  refine ⟨by decide +kernel, by decide +kernel, sheets, htells.length_eq ▸ hlength, ?_, htells,
    hreport⟩
  exact ⟨_, (hmem _ _).2 ⟨rfl, id⟩⟩

end Script

end GuidedLab
