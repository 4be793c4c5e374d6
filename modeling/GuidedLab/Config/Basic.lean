import GuidedLab.Text.Blank
import GuidedLab.Failure

/-!
# Configuration

A configuration names the folder of all runs and what lies in the folder of one run. A configuration
is valid when nothing in it is blank, the three names inside a run are plain file names, and the
state and the report do not share a file. `validate` tells the first rule that is broken.
-/

namespace GuidedLab

/-- Where things lie on disk. -/
structure Config where
  /-- The folder that holds a folder for each run. -/
  runs : String
  /-- The file with the saved state in a run's folder. -/
  state : String
  /-- The file with the report in a run's folder. -/
  report : String
  /-- The folder with the recorded experiments in a run's folder. -/
  experiments : String
deriving DecidableEq, Repr

namespace Config

/-- The configuration of those who give none. -/
def standard : Config :=
  ⟨"script_user_data", "script_user_data.json", "answers.md", "experiments"⟩

instance : Inhabited Config := ⟨standard⟩

/-- The key of the folder of all runs. -/
def runsKey : String := "user_data_dir"

/-- The key of the state file. -/
def stateKey : String := "state_file_name"

/-- The key of the report file. -/
def reportKey : String := "export_file_name"

/-- The key of the folder of experiments. -/
def experimentsKey : String := "experiments_dir_name"

/-- The keys and the values in order. -/
def entries (c : Config) : List (String × String) :=
  [(runsKey, c.runs), (stateKey, c.state), (reportKey, c.report), (experimentsKey, c.experiments)]

/-- What is wrong with a value for the key that it is given for, if nothing may be blank. -/
def blank? (key value : String) : Option String :=
  if Text.isBlankText value then some s!"{key} must not be empty" else none

/-- What is wrong with a value that has to be a plain file name. -/
def notPlain? (key value : String) : Option String :=
  if value.toList.any fun c => c = '/' || c = '\\' then
    some s!"{key} must be a plain file name, got '{value}'"
  else none

/-- What is wrong with the name of something in a run's folder. -/
def badName? (key value : String) : Option String :=
  (blank? key value).or (notPlain? key value)

/-- The first rule that a configuration breaks, in words. -/
def broken? (c : Config) : Option String :=
  (blank? runsKey c.runs).or <| (badName? stateKey c.state).or <|
    (badName? reportKey c.report).or <| (badName? experimentsKey c.experiments).or <|
      if c.state = c.report then some s!"{stateKey} and {reportKey} must differ" else none

/-- A configuration has to be valid. -/
def validate (c : Config) : Except Failure Unit :=
  match c.broken? with
  | none => .ok ()
  | some rule => .error (.ofRule rule)

end Config

end GuidedLab
