import Pseudocode.Text.Basic
set_option autoImplicit false

/-!
# Text: blank characters (SPEC §4.2, §4.5, §6.1)

White space of every script, as a set of code points.  A source of blanks only
counts as empty, the pieces of a generic type may be set apart by them, and they
are cut off the ends of a loop header.
-/

namespace Pseudocode.Text

/-- The code points that are white space. -/
def blankRanges : List (Nat × Nat) :=
  [(0x9, 0xd), (0x1c, 0x20), (0x85, 0x85), (0xa0, 0xa0), (0x1680, 0x1680), (0x2000, 0x200a),
    (0x2028, 0x2029), (0x202f, 0x202f), (0x205f, 0x205f), (0x3000, 0x3000)]

/-- White space, of any script. -/
def isBlank (c : Char) : Bool :=
  inRanges blankRanges c

/-- A text without a character that is not white space. -/
def isBlankText (t : String) : Bool :=
  t.toList.all isBlank

/-- A list of characters without the white space at its front. -/
def dropBlanks (cs : List Char) : List Char :=
  cs.dropWhile isBlank

/-- A text without the white space at both ends. -/
def trim (t : String) : String :=
  String.ofList (dropBlanks (dropBlanks t.toList).reverse).reverse

end Pseudocode.Text
