import GuidedLab.Script

/-!
# Reports

A report shows what a learner answered: a section for each sheet of the script, and in it an entry
for each plain question, text question and checkbox among the sheet's own items. Sheets come in
pre-order of the pages, a sheet before the sheets in it. The report is first put together as data and
then written.

An entry starts after an empty line. An answer is quoted, and an empty answer says so.
-/

namespace GuidedLab

namespace Report

/-- What a report says about one item. -/
inductive Entry where
  | question (number : Option UInt32) (text : String)
  | textQuestion (number : Option UInt32) (text answer : String)
  | checkbox (text : String) (ticked : Bool)
deriving DecidableEq, Repr

/-- What a report says about one sheet. -/
structure Section where
  name : String
  entries : List Entry
deriving DecidableEq, Repr

/-- The entry of an item, if it has one. -/
def entry? : Component → Option Entry
  | .leaf _ _ (.question s number) => some (.question number s)
  | .leaf _ _ (.textQuestion q) => some (.textQuestion q.number q.text q.answer)
  | .leaf _ state (.checkbox s) => some (.checkbox s state.isDone)
  | _ => none

mutual

/-- The sections of a component: a sheet, then the sheets in it. -/
def sections : Component → List Section
  | .leaf .. => []
  | .sheet name _ _ items => ⟨name, items.filterMap entry?⟩ :: sectionsOfItems items

/-- The sections of items in order. -/
def sectionsOfItems : List Component → List Section
  | [] => []
  | c :: rest => sections c ++ sectionsOfItems rest

end

/-- The number of a question as it is written. -/
def numberText : Option UInt32 → String
  | some n => Nat.repr n.toNat
  | none => "none"

/-- The line of a question. -/
def questionLine (number : Option UInt32) (text : String) : String :=
  "**Q" ++ numberText number ++ ".** " ++ text ++ "\n"

/-- An answer as it is quoted. -/
def quotation (answer : String) : String :=
  "> " ++ (if answer.isEmpty then "_(no answer)_" else answer) ++ "\n"

/-- An entry as it is written. -/
def Entry.text : Entry → String
  | .question number s => "\n" ++ questionLine number s
  | .textQuestion number s answer => "\n" ++ questionLine number s ++ "\n" ++ quotation answer
  | .checkbox s ticked => "\n- [" ++ (if ticked then "x" else " ") ++ "] " ++ s ++ "\n"

/-- A section as it is written. -/
def Section.text (s : Section) : String :=
  "\n## " ++ s.name ++ "\n" ++
    (if s.entries.isEmpty then "\n_No questions on this page._\n"
      else "".intercalate (s.entries.map Entry.text))

end Report

namespace Script

/-- The sections of the report. -/
def sections (s : Script) : List Report.Section :=
  Report.sectionsOfItems s.tree.components

/-- The report as it is written. -/
def report (s : Script) : String :=
  "# " ++ s.title ++ "\n" ++ "".intercalate (s.sections.map Report.Section.text)

end Script

end GuidedLab
