import Pseudocode.Source.Normal
set_option autoImplicit false

/-!
# Columns of a source text and of its normal form (SPEC §4.1)

Only tabs shift a column, so the way back from the normal form to the source walks
along the line and counts each tab with its width.
-/

namespace Pseudocode.Source

/-- The line of the given number, counted from zero, without its line feed. -/
def line? : Nat → List Char → Option (List Char)
  | 0, cs => some (cs.takeWhile (· ≠ '\n'))
  | n + 1, cs =>
    match cs.dropWhile (· ≠ '\n') with
    | [] => none
    | _ :: rest => line? n rest

/-- The column, in a line with tabs, of the character that covers `column` once
the tabs are expanded.  `expanded` and `plain` are the columns of the first
character of the line that is left.  Behind the end of the line both count on
together. -/
def columnIn (column : Int) : (expanded plain : Int) → List Char → Int
  | expanded, plain, [] => plain + (column - expanded)
  | expanded, plain, c :: cs =>
    if column < expanded + width c then plain
    else columnIn column (expanded + width c) (plain + 1) cs

/-- The column in the source of a column in the normal form.  On a line that the
source does not have, the column stays as it is. -/
def sourceColumn (source : String) (line column : Int) : Int :=
  if line < 1 then column
  else
    match line? (line - 1).toNat (unifyLineEnds source.toList) with
    | none => column
    | some cs => columnIn column 1 1 cs

end Pseudocode.Source
