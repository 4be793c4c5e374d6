/-!
# Refusals

Why a disk refuses an operation. Each cause that the system numbers is worded with its number; the
three others concern what is asked of the system before it is asked, or what is found in a file.
-/

namespace GuidedLab

/-- Why a disk refuses an operation. -/
inductive Refusal where
  | missing
  | present
  | notFolder
  | folder
  | busy
  | invalid
  | tooLong
  | nulInName
  | notText
  | notFile
deriving DecidableEq, Repr

namespace Refusal

/-- A cause and the number that the system gives it. -/
def numbered (cause : String) (number : Nat) : String :=
  s!"{cause} (os error {number})"

/-- The refusal in words. -/
def message : Refusal → String
  | .missing => numbered "No such file or directory" 2
  | .present => numbered "File exists" 17
  | .notFolder => numbered "Not a directory" 20
  | .folder => numbered "Is a directory" 21
  | .busy => numbered "Device or resource busy" 16
  | .invalid => numbered "Invalid argument" 22
  | .tooLong => numbered "File name too long" 36
  | .nulInName => "file name contained an unexpected NUL byte"
  | .notText => "stream did not contain valid UTF-8"
  | .notFile => "the source path is neither a regular file nor a symlink to a regular file"

end Refusal

end GuidedLab
