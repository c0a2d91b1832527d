set_option autoImplicit false

/-!
# Binary floating-point numbers (SPEC §4.5)

The numbers of the format with 53 significant bits and an exponent of 11 bits,
computed exactly and rounded once: every operation finds the exact result as a
quotient of natural numbers and then the number nearest to it, the even one if two
are equally near.
-/

namespace Pseudocode

/-- A floating-point number: `±mantissa · 2 ^ exponent`, an infinity, or the outcome
of an operation that has none.  A finite number has a mantissa of exactly 53 bits,
or a shorter one and the least exponent. -/
inductive Binary64 where
  | finite (negative : Bool) (mantissa : Nat) (exponent : Int)
  | infinite (negative : Bool)
  | nan
  deriving DecidableEq, Repr, Inhabited

namespace Binary64

/-- The number of bits of a mantissa. -/
def mantissaBits : Nat := 53

/-- The least exponent of a finite number. -/
def leastExponent : Int := -1074

/-- The greatest exponent of a finite number. -/
def greatestExponent : Int := 971

/-- The quotient rounded to the nearest natural number, a half to the even one. -/
def nearest (num den : Nat) : Nat :=
  let q := num / den
  let r := num % den
  if 2 * r < den then q
  else if den < 2 * r then q + 1
  else if q % 2 = 0 then q
  else q + 1

/-- `n · base ^ e` as a quotient of natural numbers. -/
def ratio (n base : Nat) (e : Int) : Nat × Nat :=
  if 0 ≤ e then (n * base.pow e.toNat, 1) else (n, base.pow (-e).toNat)

/-- Whether `2 ^ e ≤ num / den`. -/
def powerLe (e : Int) (num den : Nat) : Bool :=
  if 0 ≤ e then den * Nat.pow 2 e.toNat ≤ num else den ≤ num * Nat.pow 2 (-e).toNat

/-- The greatest `e` with `2 ^ e ≤ num / den`, for a quotient that is not zero. -/
def binaryExponent (num den : Nat) : Int :=
  let e : Int := (num.log2 : Int) - den.log2
  if powerLe e num den then e else e - 1

/-- A mantissa and an exponent as a number.  A mantissa that has grown by a bit
moves to the next exponent, and an exponent beyond the greatest is infinite. -/
def pack (negative : Bool) (mantissa : Nat) (exponent : Int) : Binary64 :=
  let carried := mantissa = Nat.pow 2 mantissaBits
  let m := if carried then Nat.pow 2 (mantissaBits - 1) else mantissa
  let e := if carried then exponent + 1 else exponent
  if greatestExponent < e then .infinite negative else .finite negative m e

/-- The number nearest to `±num / den`. -/
def round (negative : Bool) (num den : Nat) : Binary64 :=
  if num = 0 then .finite negative 0 leastExponent
  else
    let e := max leastExponent (binaryExponent num den - (mantissaBits - 1))
    let m :=
      if 0 ≤ e then nearest num (den * Nat.pow 2 e.toNat)
      else nearest (num * Nat.pow 2 (-e).toNat) den
    pack negative m e

/-- The number nearest to `n`. -/
def ofNat (n : Nat) : Binary64 :=
  round false n 1

/-- The number of decimal digits of `n`. -/
def digitCount (n : Nat) : Nat :=
  (Nat.toDigits 10 n).length

/-- The number nearest to `n · 10 ^ e`.  Beyond 310 digits before the point, or 330
zeros behind it, the outcome is settled without computing the power. -/
def ofDecimal (n : Nat) (e : Int) : Binary64 :=
  if n = 0 then round false 0 1
  else if 310 < e + digitCount n then .infinite false
  else if e + digitCount n < -330 then round false 0 1
  else
    let (num, den) := ratio n 10 e
    round false num den

/-- The number with the opposite sign. -/
def neg : Binary64 → Binary64
  | .finite s m e => .finite (!s) m e
  | .infinite s => .infinite (!s)
  | .nan => .nan

/-- The integer that is `2 ^ unit` times smaller than `±m · 2 ^ e`, where `unit ≤ e`. -/
def unitsOf (negative : Bool) (m : Nat) (e unit : Int) : Int :=
  let units : Int := (m * Nat.pow 2 (e - unit).toNat : Nat)
  if negative then -units else units

/-- The sum.  A sum of zero is positive unless both numbers are negative. -/
def add : Binary64 → Binary64 → Binary64
  | .finite s m e, .finite t n f =>
    let unit := min e f
    let sum := unitsOf s m e unit + unitsOf t n f unit
    if sum = 0 then round (s && t) 0 1
    else
      let (num, den) := ratio sum.natAbs 2 unit
      round (sum < 0) num den
  | .infinite s, .infinite t => if s = t then .infinite s else .nan
  | .infinite s, .finite .. => .infinite s
  | .finite .., .infinite t => .infinite t
  | .nan, _ => .nan
  | _, .nan => .nan

/-- The difference. -/
def sub (x y : Binary64) : Binary64 :=
  x.add y.neg

/-- Whether the number is greater than zero. -/
def isPositive : Binary64 → Bool
  | .finite s m _ => !s && m != 0
  | .infinite s => !s
  | .nan => false

/-- The integer that a number is, if it is one. -/
def toInt? : Binary64 → Option Int
  | .finite s m e =>
    let sign : Int := if s then -1 else 1
    if 0 ≤ e then some (sign * (m * Nat.pow 2 e.toNat : Nat))
    else if m % Nat.pow 2 (-e).toNat = 0 then some (sign * (m / Nat.pow 2 (-e).toNat : Nat))
    else none
  | _ => none

end Binary64

end Pseudocode
