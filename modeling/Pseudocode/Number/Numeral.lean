import Pseudocode.Number.Binary64
import Pseudocode.Text.Blank
import Pseudocode.Text.Digit
set_option autoImplicit false

/-!
# Numerals (SPEC §4.5)

A numeral is a run of digits, a point with more digits, and an exponent; the point
and the exponent may be missing.  Single underscores may stand between digits and
blanks behind the numeral.
-/

namespace Pseudocode.Numeral

/-- Reads digits on from a number of `count` digits whose value is `value`: the new
value, the new count and the text behind. -/
def digitRun (value count : Nat) : List Char → Nat × Nat × List Char
  | [] => (value, count, [])
  | '_' :: c :: cs =>
    match Text.decimalValue? c with
    | some d => if count = 0 then (value, count, '_' :: c :: cs)
                else digitRun (value * 10 + d) (count + 1) cs
    | none => (value, count, '_' :: c :: cs)
  | c :: cs =>
    match Text.decimalValue? c with
    | some d => digitRun (value * 10 + d) (count + 1) cs
    | none => (value, count, c :: cs)

/-- The digits of an exponent, which end the numeral. -/
def exponentDigits? (cs : List Char) : Option Nat :=
  match digitRun 0 0 cs with
  | (value, count, []) => if count = 0 then none else some value
  | _ => none

/-- The exponent that ends a numeral; there is none at its end. -/
def exponent? : List Char → Option Int
  | [] => some 0
  | c :: cs =>
    if c = 'e' ∨ c = 'E' then
      match cs with
      | '-' :: ds => (exponentDigits? ds).map fun n => -n
      | '+' :: ds => (exponentDigits? ds).map fun n => n
      | ds => (exponentDigits? ds).map fun n => n
    else none

/-- A numeral as `n · 10 ^ e`. -/
def read? (cs : List Char) : Option (Nat × Int) :=
  match digitRun 0 0 cs with
  | (whole, wholeCount, rest) =>
    if wholeCount = 0 then none
    else
      match rest with
      | '.' :: behind =>
        match digitRun whole 0 behind with
        | (value, count, rest) => (exponent? rest).map fun e => (value, e - count)
      | rest => (exponent? rest).map fun e => (whole, e)

/-- The blanks that may stand behind a numeral: all but the four separators of
records and fields. -/
def isPadding (c : Char) : Bool :=
  Text.isBlank c && !(0x1c ≤ c.toNat && c.toNat ≤ 0x1f)

/-- The number that a numeral stands for. -/
def value? (raw : String) : Option Binary64 :=
  let cs := (raw.toList.reverse.dropWhile isPadding).reverse
  (read? cs).map fun (n, e) => Binary64.ofDecimal n e

/-- Whether a text sets out to be a numeral: its first character is a digit. -/
def isIntended (raw : String) : Bool :=
  raw.toList.head?.any Text.isDigit

end Pseudocode.Numeral
