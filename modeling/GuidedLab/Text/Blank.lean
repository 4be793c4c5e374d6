/-!
# Blank characters

A text counts as empty in a configuration when it holds blank characters only. `isBlank` is the
property `White_Space` of the character standard, so a no-break space is blank and a zero-width
space is not. The blanks of a JSON text are a smaller set of their own and are defined with the
reader of that format.
-/

namespace GuidedLab.Text

/-- The ranges of code points with the property `White_Space`, both ends included. -/
def blankRanges : List (Nat × Nat) :=
  [(0x09, 0x0D), (0x20, 0x20), (0x85, 0x85), (0xA0, 0xA0), (0x1680, 0x1680), (0x2000, 0x200A),
    (0x2028, 0x2029), (0x202F, 0x202F), (0x205F, 0x205F), (0x3000, 0x3000)]

/-- A blank character lies in one of the `blankRanges`. -/
def isBlank (c : Char) : Bool :=
  blankRanges.any fun range => range.1 ≤ c.toNat && c.toNat ≤ range.2

/-- A text of blank characters only, the empty text among them. -/
def isBlankText (s : String) : Bool :=
  s.toList.all isBlank

@[simp] theorem isBlankText_empty : isBlankText "" = true := by simp [isBlankText]

end GuidedLab.Text
