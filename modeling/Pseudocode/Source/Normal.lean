set_option autoImplicit false

/-!
# Source texts in normal form (SPEC §4.1)

A text in normal form has line feeds as its only line ends, no tabs, and blanks
where it had comments.  Everything else stays where it was, up to the width of a
tab, so a position in the normal form still points at the character it came from.
String and character literals are never touched: what looks like a comment inside
one is text.
-/

namespace Pseudocode.Source

/-- A carriage return with its line feed, or alone, is one line feed. -/
def unifyLineEnds : List Char → List Char
  | [] => []
  | '\r' :: '\n' :: cs => '\n' :: unifyLineEnds cs
  | c :: cs => (if c = '\r' then '\n' else c) :: unifyLineEnds cs

/-- The columns that a tab takes. -/
def tabWidth : Nat := 2

/-- The columns that a character takes. -/
def width (c : Char) : Nat :=
  if c = '\t' then tabWidth else 1

/-- Every tab is written as blanks. -/
def expandTabs (cs : List Char) : List Char :=
  cs.flatMap fun c => if c = '\t' then List.replicate tabWidth ' ' else [c]

/-- The mark that opens and closes a string or a character literal. -/
def isQuote (c : Char) : Bool :=
  c == '"' || c == '\''

/-- What the character at hand belongs to. -/
inductive Region where
  | code
  | literal (quote : Char)
  | lineComment
  | blockComment
  deriving DecidableEq, Repr, Inhabited

/-- Blanks out the comments, keeping line feeds.  A line comment ends before the
line feed.  A block comment ends behind the first `*/` whose star is not the one
that opened it, or with the text.  A literal ends behind its closing quote or
behind a line feed; a backslash takes the next character with it. -/
def blankComments : Region → List Char → List Char
  | _, [] => []
  | .code, '/' :: '/' :: cs => ' ' :: ' ' :: blankComments .lineComment cs
  | .code, '/' :: '*' :: cs => ' ' :: ' ' :: blankComments .blockComment cs
  | .code, c :: cs => c :: blankComments (if isQuote c then .literal c else .code) cs
  | .literal q, '\\' :: c :: cs => '\\' :: c :: blankComments (.literal q) cs
  | .literal q, c :: cs =>
    c :: blankComments (if c = q ∨ c = '\n' then .code else .literal q) cs
  | .lineComment, c :: cs =>
    if c = '\n' then '\n' :: blankComments .code cs else ' ' :: blankComments .lineComment cs
  | .blockComment, '*' :: '/' :: cs => ' ' :: ' ' :: blankComments .code cs
  | .blockComment, c :: cs => (if c = '\n' then '\n' else ' ') :: blankComments .blockComment cs

/-- The characters of the normal form. -/
def normalChars (cs : List Char) : List Char :=
  blankComments .code (expandTabs (unifyLineEnds cs))

/-- The normal form of a source text. -/
def normalize (source : String) : String :=
  String.ofList (normalChars source.toList)

end Pseudocode.Source
