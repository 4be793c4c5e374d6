import GuidedLab.Path
import GuidedLab.Text.Digit

/-!
# Arguments

The arguments of the program name one command and what it works on. An argument that starts with a
dash is an option, unless it is a dash alone or comes after a double dash. The configuration can be
given before and after the name of the command, once each, and what comes after counts.

Arguments that do not follow these rules are rejected as a whole. Asking for the version or for help
ends the reading, whatever follows; what went before still has to follow the rules.
-/

namespace GuidedLab.CommandLine

/-- What the program is asked to do. -/
inductive Command where
  | validate (script : Path)
  | start (script : Path)
  | status (run : String)
  | answer (run component text : String)
  | tick (run component : String) (ticked : Bool)
  | record (run component : String) (file : Path)
  | goTo (run : String) (page : Nat)
  | export (run : String)
  | runs
  | delete (run : String)
deriving DecidableEq, Repr

/-- What arguments ask for. -/
inductive Request where
  | command (config : Option Path) (command : Command)
  | version
  | help
  | rejected
deriving DecidableEq, Repr

/-- The names of the commands. -/
def commandNames : List String :=
  ["validate", "start", "status", "answer", "tick", "record", "goto", "export", "runs", "delete"]

/-- An argument that is taken for an option. -/
def isOption (s : String) : Bool :=
  match s.toList with
  | '-' :: _ :: _ => true
  | _ => false

/-- A path, which is not empty. -/
def path? (s : String) : Option Path := if s.isEmpty then none else some ⟨s⟩

/-- The largest number of a page. -/
def largestPage : Nat := UInt64.size - 1

/-- The number of a page: digits after an optional plus sign. -/
def page? (s : String) : Option Nat :=
  let digits := match s.toList with
    | '+' :: cs => cs
    | cs => cs
  (Text.natural? digits).filter (· ≤ largestPage)

/-- What the options of one level have told so far. -/
structure Options where
  config : Option Path
  uncheck : Bool
  values : List String
deriving DecidableEq, Repr

/-- No options. -/
def Options.none : Options := ⟨.none, false, []⟩

/-- The options with a configuration, if it is the first and a path. -/
def Options.configured? (o : Options) (value : String) : Option Options :=
  if o.config.isSome then .none else (path? value).map fun p => { o with config := some p }

/-- The command of a name with its values in order. -/
def command? (name : String) (uncheck : Bool) (values : List String) : Option Command :=
  match name, values with
  | "validate", [script] => (path? script).map .validate
  | "start", [script] => (path? script).map .start
  | "status", [run] => some (.status run)
  | "answer", [run, component, text] => some (.answer run component text)
  | "tick", [run, component] => some (.tick run component !uncheck)
  | "record", [run, component, file] => (path? file).map (.record run component)
  | "goto", [run, page] => (page? page).map (.goTo run)
  | "export", [run] => some (.export run)
  | "runs", [] => some .runs
  | "delete", [run] => some (.delete run)
  | _, _ => none

/-- What a command takes at one place. -/
inductive Slot where
  | path
  | text
  | page
deriving DecidableEq, Repr

/-- Whether a value can stand at a place. -/
def Slot.fits (s : String) : Slot → Bool
  | .path => (path? s).isSome
  | .text => true
  | .page => (page? s).isSome

/-- The places of a command by its name. -/
def slots : String → List Slot
  | "validate" | "start" => [.path]
  | "status" | "export" | "delete" => [.text]
  | "answer" => [.text, .text, .text]
  | "tick" => [.text, .text]
  | "record" => [.text, .text, .path]
  | "goto" => [.text, .page]
  | _ => []

/-- Whether one more value fits into the places of a command. -/
def takesNext (name : String) (values : List String) (s : String) : Bool :=
  (slots name)[values.length]?.any (Slot.fits s)

/-- The start of an option that gives its value after a sign of equality. -/
def configStart : List Char := "--config=".toList

/-- The value of such an option. -/
def configValue? (s : String) : Option String :=
  if configStart.isPrefixOf s.toList then
    some (String.ofList (s.toList.drop configStart.length))
  else none

/-- Whether an argument asks for something by its letter or its name. -/
def asksFor (letter : Char) (name : String) (s : String) : Bool :=
  s = name || ['-', letter].isPrefixOf s.toList

/-- A request for a command, rejected if there is none. -/
def Request.ofCommand (config : Option Path) : Option Command → Request
  | some c => .command config c
  | none => .rejected

/-- What the arguments after the name of a command ask for. -/
def afterName (name : String) (config : Option Path) (o : Options) : List String → Request
  | [] => .ofCommand (o.config.or config) (command? name o.uncheck o.values)
  | "--" :: rest => .ofCommand (o.config.or config) (command? name o.uncheck (o.values ++ rest))
  | ["--config"] => .rejected
  | "--config" :: value :: rest =>
    if isOption value then .rejected
    else
      match o.configured? value with
      | some o => afterName name config o rest
      | none => .rejected
  | s :: rest =>
    match configValue? s with
    | some value =>
      match o.configured? value with
      | some o => afterName name config o rest
      | none => .rejected
    | none =>
      if s = "--uncheck" && name = "tick" && !o.uncheck then
        afterName name config { o with uncheck := true } rest
      else if asksFor 'h' "--help" s then .help
      else if isOption s || !takesNext name o.values s then .rejected
      else afterName name config { o with values := o.values ++ [s] } rest

/-- Whether help can be given on what follows: on everything, on a command, or on help itself. -/
def asksForTopic : List String → Bool
  | [] => true
  | [s] => s = "help" || commandNames.contains s
  | _ => false

/-- What arguments ask for, given the configuration that was told before them. -/
def requestFrom (o : Options) : List String → Request
  | [] => .rejected
  | ["--config"] => .rejected
  | "--config" :: value :: rest =>
    if isOption value then .rejected
    else
      match o.configured? value with
      | some o => requestFrom o rest
      | none => .rejected
  | s :: rest =>
    match configValue? s with
    | some value =>
      match o.configured? value with
      | some o => requestFrom o rest
      | none => .rejected
    | none =>
      if asksFor 'h' "--help" s then .help
      else if asksFor 'V' "--version" s then .version
      else if s = "help" && asksForTopic rest then .help
      else if commandNames.contains s then afterName s o.config .none rest
      else .rejected

/-- What the arguments of the program ask for. -/
def Request.ofArguments (arguments : List String) : Request := requestFrom .none arguments

/-- The files that a command names. -/
def Command.files : Command → List Path
  | .validate script | .start script => [script]
  | .record _ _ file => [file]
  | _ => []

end GuidedLab.CommandLine
