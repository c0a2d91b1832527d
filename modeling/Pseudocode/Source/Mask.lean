import Pseudocode.Source.Normal
set_option autoImplicit false

/-!
# Source texts with their literals masked (SPEC §4.1)

To look for words in the code alone, the contents of string and character literals
are blanked.  The quotes stay, and no character changes its place.  A literal ends
at its closing quote or before a line feed.
-/

namespace Pseudocode.Source

/-- Blanks the contents of literals; `quote` is the mark that closes the literal
at hand, if there is one. -/
def maskChars : (quote : Option Char) → List Char → List Char
  | _, [] => []
  | none, c :: cs => c :: maskChars (if isQuote c then some c else none) cs
  | some q, '\\' :: c :: cs =>
    if c = '\n' then ' ' :: '\n' :: maskChars none cs else ' ' :: ' ' :: maskChars (some q) cs
  | some q, c :: cs =>
    if c = '\n' ∨ c = q then c :: maskChars none cs else ' ' :: maskChars (some q) cs

/-- The text with the contents of its literals blanked. -/
def maskLiterals (text : String) : String :=
  String.ofList (maskChars none text.toList)

end Pseudocode.Source
