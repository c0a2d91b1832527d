import Pseudocode.Text.Invisible
set_option autoImplicit false

/-!
# Text: quoted names (SPEC §4.3, §4.4, §6.1)

A name inside a message stands in quotes: single ones, or double ones when the
name holds a single quote and no double one.  Backslashes and the quote itself are
escaped, and so is every character without a visible shape.
-/

namespace Pseudocode.Text

/-- The lower-case hexadecimal digits of `n`, at least `width` of them. -/
def hexDigits (width n : Nat) : String :=
  let digits := Nat.toDigits 16 n
  String.ofList (List.replicate (width - digits.length) '0' ++ digits)

/-- One character of a quoted name. -/
def quotedChar (quote c : Char) : String :=
  if c = '\\' || c = quote then String.ofList ['\\', c]
  else if c = '\n' then "\\n"
  else if c = '\r' then "\\r"
  else if c = '\t' then "\\t"
  else if isInvisible c then
    if c.toNat < 0x100 then "\\x" ++ hexDigits 2 c.toNat
    else if c.toNat < 0x10000 then "\\u" ++ hexDigits 4 c.toNat
    else "\\U" ++ hexDigits 8 c.toNat
  else String.ofList [c]

/-- A name in quotes. -/
def quoted (name : String) : String :=
  let cs := name.toList
  let quote := if cs.contains '\'' && !cs.contains '"' then '"' else '\''
  String.ofList [quote] ++ concat (cs.map (quotedChar quote)) ++ String.ofList [quote]

end Pseudocode.Text
