import GuidedLab.Path
import GuidedLab.Text.Lossy

/-!
# Paths as bytes

To the system a path is any row of bytes. Most paths of a run come from texts: they are typed,
configured or made from names. The path of a recording alone is handed over by the program that records,
which may give any bytes, so it is kept as bytes.

The separator and the dot are bytes of ASCII, so a raw path has its steps already as bytes: it is
`spelled` as the path with a character for each byte, and means what that path means. What is shown and
saved of a raw path is its `text`, where bytes that are not UTF-8 are replaced. A raw path that is
written as a text has this text (`RawPath.text_ofPath`); of any other one the text is another path
(`RawPath.settled`).
-/

namespace GuidedLab

/-- A path as the system has it: its bytes. -/
structure RawPath where
  bytes : List UInt8
deriving DecidableEq, Repr

namespace RawPath

/-- A path that is written as a text, by the bytes of the text in UTF-8. -/
def ofPath (p : Path) : RawPath := ⟨p.text.toList.flatMap String.utf8EncodeChar⟩

/-- What is shown and saved of a path: its text, with replacements for bytes that are no character. -/
def text (p : RawPath) : String := String.ofList (Text.lossy p.bytes)

/-- The path that is read back from what was saved of a path. -/
def settled (p : RawPath) : RawPath := ofPath ⟨p.text⟩

/-- The path as a text, if its bytes are the bytes of one. -/
def toPath? (p : RawPath) : Option Path :=
  if p.settled = p then some ⟨p.text⟩ else none

/-- The path with a character for each byte, which has the same steps. -/
def spelled (p : RawPath) : Path := ⟨String.ofList (p.bytes.map Char.ofUInt8)⟩

/-- Two paths of the same meaning. -/
def sameSteps (p q : RawPath) : Bool := p.spelled.sameSteps q.spelled

/-- Not empty and made of plain names only. -/
def isContained (p : RawPath) : Bool := p.spelled.isContained

end RawPath

end GuidedLab
