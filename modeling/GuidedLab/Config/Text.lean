import GuidedLab.Config.Basic
import GuidedLab.Toml.Reader
import GuidedLab.Toml.Written

/-!
# The text of a configuration

A configuration is a TOML document with a text under each of its keys. What is missing is as in the
standard configuration, and other keys do not matter as long as they can be read. A configuration is
written with all its keys in order, and an empty line at the end.
-/

namespace GuidedLab.Config

/-- The text under a key, the standard one if there is none. -/
def setting? (entries : Toml.Entries) (key standard : String) : Option String :=
  match Toml.Value.find? key entries with
  | none => some standard
  | some (.text s) => some s
  | some _ => none

/-- The configuration that a document holds. -/
def ofEntries? (entries : Toml.Entries) : Option Config := do
  let runs ← setting? entries runsKey standard.runs
  let state ← setting? entries stateKey standard.state
  let report ← setting? entries reportKey standard.report
  let experiments ← setting? entries experimentsKey standard.experiments
  if Toml.Plain.entriesAreReadable entries then some ⟨runs, state, report, experiments⟩ else none

/-- The configuration that a text spells. -/
def ofText? (text : String) : Option Config :=
  (Toml.ofText? text).bind ofEntries?

/-- A line of a configuration. -/
def line (entry : String × String) : String :=
  entry.1 ++ " = " ++ Toml.Written.quoted entry.2 ++ "\n"

/-- The configuration as it is written. -/
def text (c : Config) : String :=
  "".intercalate (c.entries.map line) ++ "\n"

end GuidedLab.Config
