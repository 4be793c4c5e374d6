import GuidedLab.Fault
import GuidedLab.Disk.Refusal

/-!
# Failures

What can go wrong around a script: a failure has a cause and says, outermost first, what was being
done (`contexts`). Causes are kept apart by where they come from: the script itself, the disk, a text
that is not of its format, or a rule of this program in words.
-/

namespace GuidedLab

/-- What a failure comes from. -/
inductive Cause where
  | fault (f : Fault)
  | refusal (r : Refusal)
  /-- A text is not JSON, or its value is not of the expected kind. -/
  | json
  /-- A text is not TOML, or its value is not of the expected kind. -/
  | toml
  /-- A JSON value has not the form of a script. -/
  | form
  /-- A rule of this program is broken. -/
  | rule (message : String)
deriving DecidableEq, Repr

/-- A cause and what was being done. -/
structure Failure where
  contexts : List String
  cause : Cause
deriving DecidableEq, Repr

/-- The cause in words. -/
def Cause.message : Cause → String
  | .fault f => f.message
  | .refusal r => r.message
  | .json => "unexpected JSON"
  | .toml => "unexpected TOML"
  | .form => "script schema validation failed"
  | .rule message => message

namespace Failure

/-- A failure of a cause alone. -/
def of (cause : Cause) : Failure := ⟨[], cause⟩

/-- A broken rule. -/
def ofRule (message : String) : Failure := of (.rule message)

/-- The failure with something around it that was being done. -/
def during (context : String) (f : Failure) : Failure :=
  { f with contexts := context :: f.contexts }

/-- The failure in words: what was being done and the cause. -/
def message (f : Failure) : String :=
  ": ".intercalate (f.contexts ++ [f.cause.message])

/-- Whether a saved state is refused because the script has changed since. -/
def isIncompatible (f : Failure) : Bool :=
  f.cause = .fault .incompatible

@[simp] theorem cause_during (context : String) (f : Failure) : (f.during context).cause = f.cause :=
  rfl

end Failure

/-- An answer whose failure tells what was being done. -/
def during {α : Type} (context : String) : Except Failure α → Except Failure α
  | .ok a => .ok a
  | .error f => .error (f.during context)

/-- An answer of a script, with its fault as a failure. -/
def ofScript {α : Type} : Except Fault α → Except Failure α
  | .ok a => .ok a
  | .error f => .error (.of (.fault f))

/-- An answer of a disk, with its refusal as a failure. -/
def ofDisk {α : Type} : Except Refusal α → Except Failure α
  | .ok a => .ok a
  | .error r => .error (.of (.refusal r))

end GuidedLab
