import GuidedLab.Proofs.Script.Sections
import GuidedLab.Proofs.Text.Lines

/-!
# Answers in a report

A report has a heading for each section and a line that opens each question; both begin with a mark of
their own. An answer is put after the mark of a quotation as it is, and nothing is done about the ends
of lines in it. So the first line of an answer is quoted, and its further lines stand bare in the
report, where a reader takes them for headings and questions if they begin like these.

The further lines of answers are all that changes in the number of marks: without them a report has as
many at all times of a run (`Script.only_first_line_quoted`).
-/

namespace GuidedLab

namespace Report

open Text (lines countLines IsWhole)

/-- Whether a line begins as the heading of a section or as a question. -/
def isMark (line : List Char) : Bool :=
  "## ".toList.isPrefixOf line || "**Q".toList.isPrefixOf line

namespace Entry

/-- The entry before anything is answered or ticked. -/
def blank : Entry → Entry
  | .question number text => .question number text
  | .textQuestion number text _ => .textQuestion number text ""
  | .checkbox text _ => .checkbox text false

/-- The lines of an answer after its first. -/
def furtherLines : Entry → List (List Char)
  | .textQuestion _ _ answer => (lines answer).tail
  | _ => []

theorem isWhole_text (e : Entry) : IsWhole e.text := by
  cases e with
  | question number text => exact (Text.isWhole_feed "").append (Text.isWhole_feed _)
  | textQuestion number text answer =>
      exact (((Text.isWhole_feed "").append (Text.isWhole_feed _)).append (Text.isWhole_feed "")).append
        (Text.isWhole_feed _)
  | checkbox text ticked => exact Text.isWhole_feed _

end Entry

namespace Section

/-- The section before anything is answered or ticked. -/
def blank (sec : Section) : Section := ⟨sec.name, sec.entries.map Entry.blank⟩

/-- The lines of the answers in a section after their first ones. -/
def furtherLines (sec : Section) : List (List Char) := sec.entries.flatMap Entry.furtherLines

theorem isWhole_text (sec : Section) : IsWhole sec.text := by
  refine IsWhole.append (Text.isWhole_feed _) ?_
  split
  · exact Text.isWhole_feed "\n_No questions on this page._"
  · apply Text.isWhole_intercalate
    intro s hs
    obtain ⟨e, -, rfl⟩ := List.mem_map.1 hs
    exact e.isWhole_text

end Section

/-! ### Quotations -/

/-- The mark of a quotation stands before the first line of an answer and before no other. -/
theorem exists_lines_quotation {answer : String} (ne : answer ≠ "") :
    ∃ first rest, lines answer = first :: rest ∧
      lines (quotation answer) = ("> ".toList ++ first) :: rest ++ [[]] := by
  have hne : answer.isEmpty = false := by
    rw [Bool.eq_false_iff, ne_eq, String.isEmpty_iff]
    exact ne
  obtain ⟨first, rest, hlines, hquoted⟩ :=
    Text.exists_lines_append (show '\n' ∉ "> ".toList by decide) answer
  refine ⟨first, rest, hlines, ?_⟩
  rw [quotation, hne, if_neg Bool.false_ne_true, Text.lines_feed, hquoted]

theorem countLines_quotation (answer : String) :
    countLines isMark (quotation answer) = (lines answer).tail.countP isMark := by
  by_cases h : answer = ""
  · subst h
    rfl
  · obtain ⟨first, rest, hlines, hquoted⟩ := exists_lines_quotation h
    have hquote : isMark ("> ".toList ++ first) = false := rfl
    rw [countLines, hquoted, hlines, List.countP_append,
      List.countP_cons_of_neg (Bool.eq_false_iff.1 hquote)]
    rfl

/-- The further lines of answers are all that an entry has more marks for than before it was answered. -/
theorem Entry.countLines_text (e : Entry) :
    countLines isMark e.text = countLines isMark e.blank.text + e.furtherLines.countP isMark := by
  cases e with
  | question number text => rfl
  | textQuestion number text answer =>
      have hwhole : IsWhole ("\n" ++ questionLine number text ++ "\n") :=
        ((Text.isWhole_feed "").append (Text.isWhole_feed _)).append (Text.isWhole_feed "")
      have key : ∀ answer, countLines isMark (Entry.textQuestion number text answer).text =
          countLines isMark ("\n" ++ questionLine number text ++ "\n") +
            (lines answer).tail.countP isMark := by
        intro answer
        rw [Entry.text, Text.countLines_append hwhole rfl, countLines_quotation]
      rw [blank, key answer, key ""]
      rfl
  | checkbox text ticked =>
      have key : ∀ ticked, countLines isMark (Entry.checkbox text ticked).text =
          (lines (text ++ "\n")).tail.countP isMark := by
        intro ticked
        have hsplit : (Entry.checkbox text ticked).text =
            "" ++ "\n" ++ ("- [" ++ (if ticked then "x" else " ") ++ "] " ++ (text ++ "\n")) := by
          simp only [Entry.text, ← String.append_assoc]
          rfl
        rw [hsplit, Text.countLines_append (s := "" ++ "\n") (Text.isWhole_feed "") rfl,
          Text.countLines_within (s := "- [" ++ (if ticked then "x" else " ") ++ "] ")]
        · exact Nat.zero_add _
        · cases ticked <;> decide
        · intro cs
          cases ticked <;> rfl
      rw [blank, key ticked, key false]
      rfl

theorem Section.countLines_text (sec : Section) :
    countLines isMark sec.text = countLines isMark sec.blank.text + sec.furtherLines.countP isMark := by
  have hhead : IsWhole ("\n## " ++ sec.name ++ "\n") := Text.isWhole_feed _
  rw [Section.text, Section.text, Text.countLines_append hhead rfl]
  show _ = countLines isMark ("\n## " ++ sec.name ++ "\n" ++ _) + _
  rw [Text.countLines_append hhead rfl, blank, furtherLines]
  cases h : sec.entries with
  | nil =>
      rw [List.flatMap_nil, List.countP_nil, Nat.add_zero]
      rfl
  | cons e rest =>
      have hall := Text.countLines_intercalate_map
        (fun e => ⟨Entry.isWhole_text e, Entry.isWhole_text e.blank⟩) rfl Entry.countLines_text (e :: rest)
      show _ + countLines isMark ("".intercalate ((e :: rest).map Entry.text)) =
        _ + countLines isMark ("".intercalate (((e :: rest).map Entry.blank).map Entry.text)) + _
      rw [hall, List.map_map, Nat.add_assoc]
      rfl

/-- An answer on one line has no further lines. -/
theorem furtherLines_eq_nil {c : Component} {e : Entry} (h : entry? c = some e)
    (whole : ∀ answer, c.answer? = some answer → '\n' ∉ answer.toList) : e.furtherLines = [] := by
  cases c with
  | leaf name state element =>
      cases element with
      | textQuestion q =>
          cases h
          rw [Entry.furtherLines, lines, Text.pieces_of_not_mem (whole q.answer rfl), List.tail_cons]
      | question | checkbox =>
          cases h
          rfl
      | _ => cases h
  | sheet name state orientation items => cases h

/-! ### Sections before anything is answered -/

theorem entry?_withoutChanges (c : Component) : entry? c.withoutChanges = ( entry? c).map Entry.blank := by
  cases c with
  | leaf name state element => cases element <;> rfl
  | sheet name state orientation items => rfl

/-- What no interaction touches of a component has its sections before anything is answered. -/
theorem sections_withoutChanges (c : Component) :
    sections c.withoutChanges = (sections c).map Section.blank := by
  induction c using Component.induction with
  | leaf name state element => rfl
  | sheet name state orientation items ih =>
      have hentries : (items.map Component.withoutChanges).filterMap entry? =
          (items.filterMap entry?).map Entry.blank := by
        rw [List.filterMap_map, List.map_filterMap]
        exact List.filterMap_congr fun c _ => entry?_withoutChanges c
      have hitems : sectionsOfItems (items.map Component.withoutChanges) =
          (sectionsOfItems items).map Section.blank := by
        rw [sectionsOfItems_eq_flatten, sectionsOfItems_eq_flatten, List.map_flatten, List.map_map,
          List.map_map]
        exact congrArg List.flatten (List.map_congr_left ih)
      rw [Component.withoutChanges, Component.erased_sheet, sections, sections, List.map_cons]
      exact congrArg₂ List.cons (congrArg (Section.mk name) hentries) hitems

end Report

namespace Tree

/-- An item is found where its sheet is, at its own position. -/
theorem at?_concat_eq_some_iff {t : Tree} {node i : Nat} {p : List Nat} {d : Component} :
    t.at? ⟨node, p ++ [i]⟩ = some d ↔ ∃ c, t.at? ⟨node, p⟩ = some c ∧ c.items[i]? = some d := by
  simp only [at?, Option.bind_eq_some_iff, Component.item?_append, Component.item?_cons,
    Component.item?_nil, Option.some.injEq, exists_eq_right]
  constructor
  · rintro ⟨page, hpage, c, hc, hd⟩
    exact ⟨c, ⟨page, hpage, hc⟩, hd⟩
  · rintro ⟨c, ⟨page, hpage, hc⟩, hd⟩
    exact ⟨page, hpage, c, hc, hd⟩

end Tree

namespace Script

open Report (isMark Entry Section)
open Text (lines countLines IsWhole)

/-- How many headings and questions a reader finds in the report. -/
def marks (s : Script) : Nat := countLines isMark s.report

/-- How many further lines of answers in sheets begin as headings or questions. -/
def strays (s : Script) : Nat := (s.sections.flatMap Section.furtherLines).countP isMark

/-- The sections of the report before anything is answered or ticked. -/
def blankSections (s : Script) : List Section := s.sections.map Section.blank

theorem blankSections_eq {s t : Script} (lasting : s.tree.withoutChanges = t.tree.withoutChanges) :
    s.blankSections = t.blankSections := by
  have key : ∀ s : Script,
      s.blankSections = Report.sectionsOfItems (s.tree.components.map Component.withoutChanges) := by
    intro s
    rw [blankSections, sections, Report.sectionsOfItems_eq_flatten, Report.sectionsOfItems_eq_flatten,
      List.map_flatten, List.map_map, List.map_map]
    congr 1
    exact List.map_congr_left fun c _ => (Report.sections_withoutChanges c).symm
  rw [key, key, Tree.components_map_eq lasting]

/-- The marks of a report are those of the title and of the sections before anything is answered, and
those that answers bring. -/
theorem marks_eq (s : Script) :
    s.marks = countLines isMark ("# " ++ s.title ++ "\n") +
      countLines isMark ("".intercalate (s.blankSections.map Section.text)) + s.strays := by
  have hall := Text.countLines_intercalate_map
    (fun sec => ⟨Section.isWhole_text sec, Section.isWhole_text sec.blank⟩) rfl
    Section.countLines_text s.sections
  rw [marks, report, Text.countLines_append (Text.isWhole_feed _) rfl, hall, blankSections, List.map_map,
    Nat.add_assoc]
  rfl

/-- The entries of a report are those of the items in sheets. -/
theorem exists_entry_iff {s : Script} {e : Entry} :
    (∃ sec ∈ s.sections, e ∈ sec.entries) ↔
      ∃ a c, a.isNode = false ∧ s.tree.at? a = some c ∧ Report.entry? c = some e := by
  rw [sections_eq_map_walk]
  constructor
  · rintro ⟨sec, hsec, he⟩
    obtain ⟨⟨⟨node, p⟩, sheet⟩, hsheet, rfl⟩ := List.mem_map.1 hsec
    obtain ⟨c, hc, hentry⟩ := List.mem_filterMap.1 he
    obtain ⟨i, hi⟩ := List.getElem?_of_mem hc
    have hwalk := Tree.mem_walk_iff.1 (List.mem_filter.1 hsheet).1
    refine ⟨⟨node, p ++ [i]⟩, c, ?_, Tree.at?_concat_eq_some_iff.2 ⟨sheet, hwalk, hi⟩, hentry⟩
    rw [Address.isNode, List.isEmpty_eq_false_iff]
    exact List.append_ne_nil_of_right_ne_nil _ (List.cons_ne_nil _ _)
  · rintro ⟨⟨node, items⟩, c, hitem, hc, hentry⟩
    rcases List.eq_nil_or_concat' items with rfl | ⟨p, i, rfl⟩
    · cases hitem
    · obtain ⟨sheet, hsheet, hi⟩ := Tree.at?_concat_eq_some_iff.1 hc
      -- what has items is a sheet
      have helement : ¬ sheet.IsElement := by
        cases sheet with
        | leaf => cases hi
        | sheet => exact id
      refine ⟨.ofSheet sheet, List.mem_map.2 ⟨(⟨node, p⟩, sheet), ?_, rfl⟩, ?_⟩
      · exact List.mem_filter.2 ⟨Tree.mem_walk_iff.2 hsheet, decide_eq_true helement⟩
      · exact List.mem_filterMap.2 ⟨c, List.mem_of_getElem? hi, hentry⟩

/-- Every entry stands in the report as it is. -/
theorem exists_report_eq {s : Script} {sec : Section} {e : Entry} (hsec : sec ∈ s.sections)
    (he : e ∈ sec.entries) : ∃ before after, s.report = before ++ e.text ++ after := by
  obtain ⟨before, after, hsections⟩ := Text.exists_intercalate_eq (List.mem_map_of_mem hsec)
  obtain ⟨head, tail, hentries⟩ := Text.exists_intercalate_eq (List.mem_map_of_mem he)
  have hsome : sec.entries.isEmpty = false := List.isEmpty_eq_false_iff.2 (List.ne_nil_of_mem he)
  refine ⟨"# " ++ s.title ++ "\n" ++ before ++ ("\n## " ++ sec.name ++ "\n") ++ head, tail ++ after, ?_⟩
  rw [report, hsections, Section.text, hsome, if_neg Bool.false_ne_true, hentries]
  simp only [String.append_assoc]

/-- Of an answer in a sheet, the first line is quoted and the further lines stand bare in the report.
The number of headings and questions in the report of a script changes by the further lines of answers
that begin as these do, and by nothing else. There are none while no answer has an end of line. -/
theorem only_first_line_quoted (s : Script) (calls others : List Call) :
    (∀ a name state q, a.isNode = false →
      (s.after calls).tree.at? a = some (.leaf name state (.textQuestion q)) → q.answer ≠ "" →
      ∃ first rest before after, lines q.answer = first :: rest ∧
        lines (s.after calls).report =
          before ++ lines (Report.questionLine q.number q.text) ++ ("> ".toList ++ first) :: rest ++
            after) ∧
    (s.after calls).marks + (s.after others).strays =
      (s.after others).marks + (s.after calls).strays ∧
    ((∀ a answer, a.isNode = false → (s.after calls).tree.answerAt? a = some answer →
      '\n' ∉ answer.toList) → (s.after calls).strays = 0) := by
  refine ⟨?_, ?_, ?_⟩
  · intro a name state q hitem hq hanswer
    obtain ⟨sec, hsec, he⟩ := exists_entry_iff.2 ⟨a, _, hitem, hq, rfl⟩
    obtain ⟨before, after, hreport⟩ := exists_report_eq hsec he
    obtain ⟨first, rest, hlines, hquoted⟩ := Report.exists_lines_quotation hanswer
    have hquotation : IsWhole (Report.quotation q.answer) := Text.isWhole_feed _
    have hsplit : (s.after calls).report = before ++ "\n" ++
        (Report.questionLine q.number q.text ++ "\n" ++ (Report.quotation q.answer ++ after)) := by
      rw [hreport, Entry.text]
      simp only [String.append_assoc]
    refine ⟨first, rest, lines before, lines after, hlines, ?_⟩
    rw [hsplit, Text.lines_feed_append before, Text.lines_feed_append, hquotation.lines_append, hquoted,
      List.dropLast_concat]
    simp only [List.append_assoc]
  · have hblank : (s.after calls).blankSections = (s.after others).blankSections := by
      apply blankSections_eq
      rw [s.withoutChanges_after, s.withoutChanges_after]
    rw [marks_eq, marks_eq, hblank, s.title_after, s.title_after]
    omega
  · intro whole
    rw [strays, List.countP_eq_zero]
    intro line hline
    obtain ⟨sec, hsec, hline⟩ := List.mem_flatMap.1 hline
    obtain ⟨e, he, hline⟩ := List.mem_flatMap.1 hline
    obtain ⟨a, c, hitem, hc, hentry⟩ := exists_entry_iff.1 ⟨sec, hsec, he⟩
    have hnone : e.furtherLines = [] := by
      apply Report.furtherLines_eq_nil hentry
      intro answer hanswer
      exact whole a answer hitem (by rw [Tree.answerAt?, hc, Option.bind_some, hanswer])
    rw [hnone] at hline
    cases hline

/-- A script that asks one question. -/
def asking : Script := .new "T" (.new (.ofItems "s" .vertical [.ofTextQuestion "q" "Why?" false]))

/-- The script with its question answered. -/
def asked (answer : String) : Script := asking.after [.interact ⟨0, [0]⟩ (.answer answer)]

/-- The second line of the answer stands bare, and is the only mark that another answer does not bring. -/
theorem only_first_line_quoted_asked :
    (∃ before after, lines (asked "a\n## b").report =
      before ++ lines "**Q1.** Why?\n" ++ ["> a".toList, "## b".toList] ++ after) ∧
    (asked "a\n## b").marks = (asked "a").marks + 1 ∧ (asked "a").strays = 0 := by
  obtain ⟨hquoted, hmarks, -⟩ := only_first_line_quoted asking
    [.interact ⟨0, [0]⟩ (.answer "a\n## b")] [.interact ⟨0, [0]⟩ (.answer "a")]
  obtain ⟨-, -, hnone⟩ := only_first_line_quoted asking [.interact ⟨0, [0]⟩ (.answer "a")] []
  have hstrays : (asked "a").strays = 0 := by
    apply hnone
    rintro ⟨node, items⟩ answer hitem hanswer
    match node, items with
    | 0, [0] =>
        cases hanswer
        decide
    | _, [] => cases hitem
    | 0, 0 :: _ :: _ | 0, (_ + 1) :: _ | _ + 1, _ :: _ => cases hanswer
  have hstray : (asked "a\n## b").strays = 1 := by decide +kernel
  refine ⟨?_, ?_, hstrays⟩
  · obtain ⟨first, rest, before, after, hlines, hreport⟩ :=
      hquoted ⟨0, [0]⟩ "q" (.done 0) ⟨"Why?", "a\n## b", false, some 1⟩ rfl rfl (by decide)
    obtain ⟨rfl, rfl⟩ := List.cons.inj (hlines.symm.trans (show _ = ['a'] :: ["## b".toList] from rfl))
    exact ⟨before, after, hreport⟩
  · have hsum : (asked "a\n## b").marks + (asked "a").strays =
        (asked "a").marks + (asked "a\n## b").strays := hmarks
    rwa [hstrays, hstray] at hsum

/-- Not every line of an answer is quoted, and an answer may change how many headings are found. -/
theorem not_answers_quoted :
    (¬ ∀ (s : Script) (calls : List Call) (a : Address) (name : String) (state : State)
        (q : TextQuestion), a.isNode = false →
      (s.after calls).tree.at? a = some (.leaf name state (.textQuestion q)) → q.answer ≠ "" →
      ∀ line ∈ lines q.answer, ∃ quoted ∈ lines (s.after calls).report,
        "> ".toList <+: quoted ∧ line <:+: quoted) ∧
    ¬ ∀ (s : Script) (calls : List Call) (a : Address) (x y : String),
      (s.after (calls ++ [.interact a (.answer x)])).marks =
        (s.after (calls ++ [.interact a (.answer y)])).marks := by
  constructor
  · intro h
    obtain ⟨quoted, hquoted, hmark, hline⟩ := h asking [.interact ⟨0, [0]⟩ (.answer "a\n## b")]
      ⟨0, [0]⟩ "q" (.done 0) ⟨"Why?", "a\n## b", false, some 1⟩ rfl rfl (by decide)
      "## b".toList (by decide)
    have hbare : ∀ line ∈ lines (asked "a\n## b").report, "> ".toList <+: line →
        ¬ "## b".toList <:+: line := by
      decide +kernel
    exact hbare quoted hquoted hmark hline
  · intro h
    have hmarks : (asked "a\n## b").marks ≠ (asked "a").marks := by decide +kernel
    exact hmarks (h asking [] ⟨0, [0]⟩ "a\n## b" "a")

end Script

end GuidedLab
