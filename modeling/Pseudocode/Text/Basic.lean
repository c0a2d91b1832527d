set_option autoImplicit false

/-!
# Text: joining, repeating, searching (SPEC §4.5)

The few operations on text that the rest of the library is built from.  A text is
a `String` at the interfaces and a `List Char` wherever it is walked, so that
every walk is a recursion on data.
-/

namespace Pseudocode.Text

/-- The texts in order, with `separator` between neighbours. -/
def join (separator : String) : List String → String
  | [] => ""
  | [t] => t
  | t :: u :: ts => t ++ separator ++ join separator (u :: ts)

@[simp] theorem join_nil (separator : String) : join separator [] = "" := rfl

@[simp] theorem join_singleton (separator t : String) : join separator [t] = t := rfl

theorem join_cons_cons (separator t u : String) (ts : List String) :
    join separator (t :: u :: ts) = t ++ separator ++ join separator (u :: ts) := rfl

/-- The texts in order, with nothing between them. -/
def concat : List String → String
  | [] => ""
  | t :: ts => t ++ concat ts

/-- `n` copies of a text; none when `n` is negative. -/
def repeated (t : String) (n : Int) : String :=
  concat (List.replicate n.toNat t)

/-- Whether `part` stands somewhere in the text. -/
def hasPart (part : List Char) : List Char → Bool
  | [] => part.isEmpty
  | c :: cs => part.isPrefixOf (c :: cs) || hasPart part cs

/-- Whether `part` stands somewhere in `text`. -/
def contains (part text : String) : Bool :=
  hasPart part.toList text.toList

/-- Whether `part` stands somewhere in `text` once the letters `A` to `Z` are
read as `a` to `z`. -/
def containsFolded (part text : String) : Bool :=
  hasPart part.toList (text.toList.map Char.toLower)

/-- What is left of a text behind `front`, if it starts with that. -/
def behind? (front text : String) : Option String :=
  if front.toList.isPrefixOf text.toList then some (String.ofList (text.toList.drop front.length))
  else none

/-- The text in round brackets. -/
def bracketed (t : String) : String :=
  "(" ++ t ++ ")"

/-- The text in square brackets. -/
def subscript (t : String) : String :=
  "[" ++ t ++ "]"

/-- The character lies in one of the given closed ranges of code points.  All tables
of such ranges follow version 14.0 of Unicode. -/
def inRanges (ranges : List (Nat × Nat)) (c : Char) : Bool :=
  ranges.any fun r => r.1 ≤ c.toNat && c.toNat ≤ r.2

end Pseudocode.Text
