import GuidedLab.RawPath
import GuidedLab.State

/-!
# Elements

An element is what a component without items shows, asks or records. Texts, headers, plain questions,
graphs and exports ask for nothing and are done from the start. A checkbox and an experiment are
ongoing until they are ticked and recorded. A text question is done as soon as it is optional or its
answer is not empty; whether the answer is right is not asked.
-/

namespace GuidedLab

/-- How a text is set. -/
inductive TextStyle where
  | normal
  | header
deriving DecidableEq, Repr

/-- What records an experiment. -/
inductive Sensor where
  | camera
  | accelerometer
  | microphone
deriving DecidableEq, Repr

namespace Sensor

/-- The sensors in the order of their definition. -/
def all : List Sensor := [.camera, .accelerometer, .microphone]

/-- The name of a sensor in scripts. -/
def name : Sensor → String
  | .camera => "camera"
  | .accelerometer => "accelerometer"
  | .microphone => "microphone"

/-- The sensor of a name. -/
def ofName? (s : String) : Option Sensor := all.find? fun sensor => sensor.name = s

@[simp] theorem ofName?_name (sensor : Sensor) : ofName? sensor.name = some sensor := by
  cases sensor <;> decide

end Sensor

/-- A series of data on an axis of a graph. -/
inductive Axis where
  | xPosition
  | yPosition
  | xVelocity
  | yVelocity
  | time
  /-- Time at the samples of a velocity. -/
  | velocityTime
deriving DecidableEq, Repr

namespace Axis

/-- The axes in the order of their definition. -/
def all : List Axis := [.xPosition, .yPosition, .xVelocity, .yVelocity, .time, .velocityTime]

/-- The canonical name of an axis. -/
def name : Axis → String
  | .xPosition => "x-position"
  | .yPosition => "y-position"
  | .xVelocity => "x-velocity"
  | .yVelocity => "y-velocity"
  | .time => "time"
  | .velocityTime => "time_v"

/-- A text with its ASCII letters in lower case. -/
def lowered (s : String) : List Char := s.toList.map Char.toLower

/-- The axis of a name in any mixture of ASCII cases. -/
def ofName? (s : String) : Option Axis := all.find? fun axis => axis.name.toList = lowered s

/-- What is wrong with a name that no axis has. -/
def unknown (s : String) : String := s!"unknown graph axis '{s}'"

end Axis

/-- A question with a text for an answer. -/
structure TextQuestion where
  text : String
  answer : String
  optional : Bool
  number : Option UInt32
deriving DecidableEq, Repr

/-- The state that the data of a text question dictates. -/
def TextQuestion.state (q : TextQuestion) : State :=
  if q.optional || !q.answer.isEmpty then .plainlyDone else .ongoing

/-- An experiment to be recorded with one sensor. The recording lies at a path below the run. -/
structure Experiment where
  sensor : Sensor
  description : String
  path : Option RawPath
deriving DecidableEq, Repr

/-- A graph of the data of an experiment, which is given by its name. -/
structure Graph where
  title : String
  xAxis : Axis
  yAxis : Axis
  experiment : Option String
deriving DecidableEq, Repr

namespace Graph

/-- The path of the motion in the plane. -/
def position (experiment : Option String) : Graph :=
  ⟨"Position Data", .xPosition, .yPosition, experiment⟩

/-- The horizontal velocity over time. -/
def horizontalVelocity (experiment : Option String) : Graph :=
  ⟨"X-Velocity vs. Time", .velocityTime, .xVelocity, experiment⟩

/-- The vertical velocity over time. -/
def verticalVelocity (experiment : Option String) : Graph :=
  ⟨"Y-Velocity vs. Time", .velocityTime, .yVelocity, experiment⟩

/-- The title of a graph that is given none. -/
def defaultTitle (xAxis yAxis : Axis) : String := s!"{yAxis.name} vs. {xAxis.name}"

end Graph

/-- What a component without items shows, asks or records. -/
inductive Element where
  | text (style : TextStyle) (text : String)
  | question (text : String) (number : Option UInt32)
  | checkbox (text : String)
  | textQuestion (q : TextQuestion)
  | experiment (e : Experiment)
  | graph (g : Graph)
  | export
deriving DecidableEq, Repr

namespace Element

/-- The name of the kind. -/
def label : Element → String
  | .text .header _ => "header"
  | .text .normal _ => "text"
  | .question .. => "question"
  | .checkbox _ => "checkbox_question"
  | .textQuestion _ => "text_question"
  | .experiment _ => "experiment"
  | .graph _ => "graph"
  | .export => "export"

/-- The state of a new component. -/
def initialState : Element → State
  | .checkbox _ | .experiment _ => .ongoing
  | .textQuestion q => q.state
  | _ => .plainlyDone

/-- The element with a number, if it is a question that is numbered. -/
def withNumber? (n : UInt32) : Element → Option Element
  | .question s _ => some (.question s (some n))
  | .textQuestion q => some (.textQuestion { q with number := some n })
  | _ => none

@[simp] theorem label_withNumber? {n : UInt32} {e e' : Element} (h : e.withNumber? n = some e') :
    e'.label = e.label := by
  cases e <;> simp_all [withNumber?] <;> subst h <;> rfl

end Element

end GuidedLab
