import GuidedLab.Tree.Basic
import GuidedLab.Digest.Sha256

/-!
# The fingerprint of a tree

Saved states are kept by position, so they mean something only for a tree of the same structure. The
structure is written as a *description*: for each page in pre-order the kind and name of its
component, for a sheet the same of its items in brackets, and then the branches with the positions
of the pages they lead to. Texts, states and the numbers of pages are left out. The *fingerprint* is
the digest of the description; what two trees of one description have in common is a matter of the
description alone.

Names stand between angle brackets with everything outside printable ASCII escaped, and so are quotes
and backslashes.
-/

namespace GuidedLab

namespace Fingerprint

/-- A character of a name as it is described. -/
def escaped (c : Char) : List Char :=
  if c = '\t' then ['\\', 't']
  else if c = '\r' then ['\\', 'r']
  else if c = '\n' then ['\\', 'n']
  else if c = '\'' || c = '\x22' || c = '\\' then ['\\', c]
  else if ' ' ≤ c ∧ c ≤ '~' then [c]
  else '\\' :: 'u' :: '\x7b' :: (Text.hexDigits c.toNat ++ ['\x7d'])

/-- A name as it is described. -/
def name (s : String) : List Char :=
  '<' :: (s.toList.flatMap escaped ++ ['>'])

mutual

/-- The description of a component. -/
def component : Component → List Char
  | .leaf n _ element => element.label.toList ++ name n
  | .sheet n _ _ items => "sheet".toList ++ name n ++ '[' :: (itemList items ++ [']'])

/-- The description of items, each with a comma after it. -/
def itemList : List Component → List Char
  | [] => []
  | c :: rest => component c ++ ',' :: itemList rest

end

/-- The branches of a place with the positions they lead to, from the position of the first. -/
def positions (p : Nat) : Branches Component → List (UInt32 × Nat)
  | .nil => []
  | .cons b _ _ after others => (b, p) :: positions (p + 1 + after.size) others

/-- A branch and the position it leads to. -/
def link (l : UInt32 × Nat) : List Char :=
  (Nat.repr l.1.toNat).toList ++ ':' :: ((Nat.repr l.2).toList ++ [','])

/-- The description of the pages from a position on. -/
def pages (p : Nat) : Branches Component → List Char
  | .nil => []
  | .cons _ _ c after others =>
    component c ++ '\x7b' :: ((positions (p + 1) after).flatMap link ++ '\x7d' :: ';' ::
      (pages (p + 1) after ++ pages (p + 1 + after.size) others))

end Fingerprint

namespace Tree

/-- The structure of a tree in words. -/
def description (t : Tree) : String :=
  String.ofList (Fingerprint.pages 0 t.pages)

/-- The digest of the description. -/
def fingerprint (t : Tree) : String :=
  Digest.Sha256.ofText t.description

end Tree

end GuidedLab
