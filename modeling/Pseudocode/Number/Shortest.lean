import Pseudocode.Number.Binary64
import Pseudocode.Text.Basic
set_option autoImplicit false

/-!
# Numbers as text (SPEC §4.5)

A number is written with the fewest digits that read back as that number, and among
those with the ones nearest to it.  The digits stand around a point as long as the
number is neither very large nor very small; otherwise with an exponent.
-/

namespace Pseudocode.Binary64

/-- A decimal number `d₀.d₁d₂… · 10 ^ exponent`. -/
structure Scientific where
  digits : List Char
  exponent : Int
  deriving DecidableEq, Repr, Inhabited

/-- The greatest `e` with `10 ^ e ≤ num / den`, for a quotient that is not zero. -/
def decimalExponent (num den : Nat) : Int :=
  if den ≤ num then (digitCount (num / den) : Int) - 1
  else -(digitCount ((den + num - 1) / num - 1) : Int)

/-- `n · 10 ^ e` without the zeros at the end of `n`. -/
def scientific (n : Nat) (e : Int) : Scientific :=
  let digits := Nat.toDigits 10 n
  ⟨(digits.reverse.dropWhile (· == '0')).reverse, e + digits.length - 1⟩

/-- Whether `n · 10 ^ e` reads back as `x`. -/
def readsAs (x : Binary64) (n : Nat) (e : Int) : Bool :=
  ofDecimal n e == x

/-- The decimal number of `count` digits, nearest to the quotient, that reads back
as `x`. -/
def withDigits? (x : Binary64) (num den count : Nat) : Option Scientific :=
  let e := decimalExponent num den - (count - 1)
  let (scaledNum, scaledDen) :=
    if 0 ≤ e then (num, den * Nat.pow 10 e.toNat) else (num * Nat.pow 10 (-e).toNat, den)
  let near := nearest scaledNum scaledDen
  let below := scaledNum / scaledDen
  let far := if near = below then below + 1 else below
  if readsAs x near e then some (scientific near e)
  else if readsAs x far e then some (scientific far e)
  else none

/-- The shortest decimal number that reads back as `m · 2 ^ e`. -/
def shortest (m : Nat) (e : Int) : Scientific :=
  let (num, den) := ratio m 2 e
  let counts := (List.range 17).map (· + 1)
  (counts.findSome? (withDigits? (.finite false m e) num den)).getD ⟨['0'], 0⟩

/-- How a decimal number is written: around a point if its exponent is at least
`least` and below `bound`, otherwise with an exponent of at least `width` digits. -/
structure DecimalForm where
  least : Int
  bound : Int
  width : Nat

/-- Numbers stand around a point from a ten-thousandth up to sixteen digits. -/
def plainForm : DecimalForm := ⟨-4, 16, 2⟩

/-- The digits around a point, with at least one on each side. -/
def pointed (s : Scientific) : String :=
  if 0 ≤ s.exponent then
    let whole := s.exponent.toNat + 1
    let before := s.digits.take whole ++ List.replicate (whole - s.digits.length) '0'
    let behind := s.digits.drop whole
    String.ofList (before ++ '.' :: (if behind.isEmpty then ['0'] else behind))
  else
    String.ofList ('0' :: '.' :: List.replicate ((-s.exponent).toNat - 1) '0' ++ s.digits)

/-- The digits with an exponent. -/
def exponential (width : Nat) (s : Scientific) : String :=
  let head := s.digits.take 1
  let tail := s.digits.drop 1
  let power := Nat.toDigits 10 s.exponent.natAbs
  let sign := if s.exponent < 0 then '-' else '+'
  String.ofList (head ++ (if tail.isEmpty then [] else '.' :: tail) ++ 'e' :: sign ::
    List.replicate (width - power.length) '0' ++ power)

/-- A decimal number in the given form. -/
def DecimalForm.write (form : DecimalForm) (s : Scientific) : String :=
  if form.least ≤ s.exponent ∧ s.exponent < form.bound then pointed s
  else exponential form.width s

/-- A number as text. -/
def text : Binary64 → String
  | .finite s m e =>
    (if s then "-" else "") ++ (if m = 0 then "0.0" else plainForm.write (shortest m e))
  | .infinite s => if s then "-inf" else "inf"
  | .nan => "nan"

/-- A number as text, an integer with all its digits and without a point. -/
def plainText (x : Binary64) : String :=
  match x.toInt? with
  | some i => toString i
  | none => x.text

end Pseudocode.Binary64
