import Pseudocode.Text.Basic
set_option autoImplicit false

/-!
# Sheets of indented lines (SPEC §4.5)

Pseudocode is written line by line on a sheet, each line at the depth of the block
it belongs to.
-/

namespace Pseudocode

/-- A line of text at a depth. -/
structure Line where
  depth : Int
  text : String
  deriving DecidableEq, Repr, Inhabited

/-- The line with its indentation; an empty line has none. -/
def Line.layout (unit : String) (line : Line) : String :=
  if line.text = "" then "" else Text.repeated unit line.depth ++ line.text

/-- The lines written so far, the depth of the next one and what one step of depth
looks like. -/
structure Sheet where
  unit : String
  depth : Int
  lines : List Line
  deriving DecidableEq, Repr, Inhabited

namespace Sheet

/-- A sheet without lines. -/
def blank (unit : String) : Sheet := ⟨unit, 0, []⟩

/-- Writes a line. -/
def write (sheet : Sheet) (text : String) : Sheet :=
  { sheet with lines := sheet.lines ++ [⟨sheet.depth, text⟩] }

/-- Changes the depth of the lines to come. -/
def shift (sheet : Sheet) (delta : Int) : Sheet :=
  { sheet with depth := sheet.depth + delta }

/-- The text of the sheet. -/
def output (sheet : Sheet) : String :=
  Text.join "\n" (sheet.lines.map (Line.layout sheet.unit))

end Sheet

end Pseudocode
