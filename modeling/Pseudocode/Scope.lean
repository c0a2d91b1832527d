import Pseudocode.Position
import Pseudocode.Source.Mask
import Pseudocode.Text.Alphanumeric
import Pseudocode.Text.Blank
set_option autoImplicit false

/-!
# The scope of the teaching subset (SPEC §4.2)

Some constructs are turned away before a text is cut into tokens: interfaces,
inheritance, exceptions, `switch`, generics and a second class.  They are looked
for in the pieces of the text (words and single signs) with the contents of its
literals masked, so that a word inside a string, or inside a longer word, is none
of them.
-/

namespace Pseudocode

/-- A construct outside the subset. -/
inductive Construct where
  | interfaces
  | inheritance
  | exceptions
  | switching
  | generics
  | classes
  deriving DecidableEq, Repr, Inhabited

/-- Why the construct is turned away. -/
def Construct.reason : Construct → String
  | .interfaces => "Interfaces are out of scope."
  | .inheritance => "Inheritance is out of scope."
  | .exceptions => "Exceptions are out of scope."
  | .switching => "Switch is out of scope."
  | .generics => "Generics are out of scope."
  | .classes => "Multiple classes are out of scope."

namespace Scope

open Text (isBlank isWordChar)

/-- A piece of a text: a longest run of word characters with its place, or any
other character that is not blank. -/
inductive Piece where
  | word (pos : Pos) (chars : List Char)
  | sign (char : Char)
  deriving DecidableEq, Repr, Inhabited

/-- The pieces of a text from position `p` on; `inWord` says that the character
before it belongs to a word. -/
def pieces : (inWord : Bool) → (p : Pos) → List Char → List Piece
  | _, _, [] => []
  | inWord, p, c :: cs =>
    let rest := pieces (isWordChar c) (p.next c) cs
    if isWordChar c then
      if inWord then rest else .word p ((c :: cs).takeWhile isWordChar) :: rest
    else if isBlank c then rest
    else .sign c :: rest

/-- The places of a word, in order. -/
def places (word : String) (ps : List Piece) : List Pos :=
  ps.filterMap fun
    | .word p chars => if chars = word.toList then some p else none
    | .sign _ => none

/-- A word that starts with one of the letters `A` to `Z`. -/
def isCapitalized : List Char → Bool
  | [] => false
  | c :: _ => c.isUpper

/-- What may follow a type argument: pairs of square brackets, a comma and another
argument, and in the end the closing bracket. -/
def closesArguments : List Piece → Bool
  | .sign '[' :: .sign ']' :: ps => closesArguments ps
  | .sign ',' :: .word _ w :: ps => isCapitalized w && closesArguments ps
  | .sign '>' :: _ => true
  | _ => false

/-- A list of type arguments in angle brackets, which may be empty. -/
def opensArguments : List Piece → Bool
  | .sign '<' :: .sign '>' :: _ => true
  | .sign '<' :: .word _ w :: ps => isCapitalized w && closesArguments ps
  | _ => false

/-- The place of the first capitalized word with type arguments. -/
def genericPlace? : List Piece → Option Pos
  | [] => none
  | .word p w :: ps =>
    if isCapitalized w && opensArguments ps then some p else genericPlace? ps
  | .sign _ :: ps => genericPlace? ps

/-- The constructs in the order in which they are looked for, each with the place
where it shows. -/
def rules : List (Construct × (List Piece → Option Pos)) :=
  [(.interfaces, fun ps => (places "interface" ps).head?),
    (.interfaces, fun ps => (places "implements" ps).head?),
    (.inheritance, fun ps => (places "extends" ps).head?),
    (.exceptions, fun ps => (places "throws" ps).head?),
    (.exceptions, fun ps => (places "try" ps).head?),
    (.exceptions, fun ps => (places "catch" ps).head?),
    (.switching, fun ps => (places "switch" ps).head?),
    (.generics, genericPlace?),
    (.classes, fun ps => (places "class" ps)[1]?)]

/-- The pieces of a text whose literals are masked. -/
def codePieces (text : String) : List Piece :=
  pieces false .start (Source.maskLiterals text).toList

/-- The first construct outside the subset, by the order of the rules, with its
place in the text. -/
def violation? (text : String) : Option (Construct × Pos) :=
  rules.findSome? fun rule => (rule.2 (codePieces text)).map (rule.1, ·)

end Scope

end Pseudocode
