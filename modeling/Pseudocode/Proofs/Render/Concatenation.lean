import Pseudocode.Proofs.Program.Move
import Pseudocode.Render.Shape
set_option autoImplicit false

/-!
# Strings put together

A sum is worked out from the left, and from its first string on it is a string.  The parts that a
printed sum is split into say the same when they are written one behind the other: none of them
is cut off before the sum has become a string.
-/

namespace Pseudocode

theorem Text.concat_append (ts us : List String) :
    Text.concat (ts ++ us) = Text.concat ts ++ Text.concat us := by
  induction ts with
  | nil => simp [Text.concat]
  | cons t ts ih => simp [Text.concat, ih, String.append_assoc]

/-! ## Values -/

/-- A value: a string, or something that is added up. -/
inductive Value (ν : Type) where
  | string (s : String)
  | number (n : ν)
  deriving DecidableEq, Repr, Inhabited

/-- How values other than strings are added and written. -/
structure Addition (ν : Type) where
  add : ν → ν → ν
  text : ν → String

namespace Addition

variable {ν : Type}

/-- The string of a value. -/
def write (A : Addition ν) : Value ν → String
  | .string s => s
  | .number n => A.text n

/-- The sum of two values, which is a string if one of them is. -/
def plus (A : Addition ν) : Value ν → Value ν → Value ν
  | .number m, .number n => .number (A.add m n)
  | v, w => .string (A.write v ++ A.write w)

theorem plus_string_left (A : Addition ν) (s : String) (w : Value ν) :
    A.plus (.string s) w = .string (s ++ A.write w) := by
  cases w <;> rfl

theorem plus_string_right (A : Addition ν) (v : Value ν) (s : String) :
    A.plus v (.string s) = .string (A.write v ++ s) := by
  cases v <;> rfl

end Addition

namespace Expr

/-- The value of an expression, from the values of the operands of its sums. -/
def value {ν : Type} (A : Addition ν) (operand : Expr → Value ν) : Expr → Value ν
  | .binary _ .add l r => A.plus (l.value A operand) (r.value A operand)
  | e => operand e

/-! ## Sums -/

/-- The operands of a sum: its first operand, and all that is added to it. -/
def addends : Expr → List Expr
  | .binary _ .add l r => l.addends ++ [r]
  | e => [e]

/-- The sum of the operands, worked out from the left. -/
def sum : List Expr → Option Expr
  | [] => none
  | first :: others => some (others.foldl (fun l r => .binary l.pos .add l r) first)

theorem sum_concat {parts : List Expr} {l : Expr} (h : sum parts = some l) (r : Expr) :
    sum (parts ++ [r]) = some (.binary l.pos .add l r) := by
  cases parts with
  | nil => cases h
  | cons first others =>
    obtain rfl := Option.some.inj h
    simp [sum]

/-! ## The parts of a sum -/

section Parts

variable {e l r : Expr} {p : Pos}

/-- Behind a string each operand is a part of its own. -/
theorem concatParts_behind_string (h : l.concatParts.2 = true) :
    (binary p .add l r).concatParts = (l.concatParts.1 ++ [r], true) := by
  simp [concatParts, h]

/-- The first string literal cuts off all that stands before it. -/
theorem concatParts_first_string (hl : l.concatParts.2 = false) (hr : r.isStringLiteral = true) :
    (binary p .add l r).concatParts = ([l, r], true) := by
  simp [concatParts, hl, hr]

/-- Without a string the sum stays together. -/
theorem concatParts_no_string (hl : l.concatParts.2 = false) (hr : r.isStringLiteral = false) :
    (binary p .add l r).concatParts = ([binary p .add l r], false) := by
  simp [concatParts, hl, hr]

theorem concatParts_operand (h : ∀ p l r, e ≠ binary p .add l r) :
    e.concatParts = ([e], e.isStringLiteral) :=
  concatParts.eq_2 e h

theorem addends_operand (h : ∀ p l r, e ≠ binary p .add l r) : e.addends = [e] :=
  addends.eq_2 e h

/-- Induction along a sum.  What is added comes behind a string, is the first string itself or
leaves the sum without one; all else is an operand. -/
@[elab_as_elim]
theorem sum_induction {motive : Expr → Prop}
    (behind : ∀ p l r, l.concatParts.2 = true → motive l → motive (binary p .add l r))
    (first : ∀ p l r, l.concatParts.2 = false → r.isStringLiteral = true → motive l →
      motive (binary p .add l r))
    (number : ∀ p l r, l.concatParts.2 = false → r.isStringLiteral = false → motive l →
      motive (binary p .add l r))
    (operand : ∀ e, (∀ p l r, e ≠ binary p .add l r) → motive e) (e : Expr) : motive e := by
  fun_induction addends e with
  | case1 p l r ih =>
    cases hl : l.concatParts.2 with
    | true => exact behind p l r hl ih
    | false =>
      cases hr : r.isStringLiteral with
      | true => exact first p l r hl hr ih
      | false => exact number p l r hl hr ih
  | case2 e hoperand => exact operand e hoperand

/-- The parts make a string just if one of the operands is a string literal. -/
theorem concatParts_isString (e : Expr) : e.concatParts.2 = e.addends.any isStringLiteral := by
  induction e using sum_induction with
  | behind p l r hl ih => simp [concatParts_behind_string hl, addends, ← ih, hl]
  | first p l r hl hr ih => simp [concatParts_first_string hl hr, addends, hr]
  | number p l r hl hr ih => simp [concatParts_no_string hl hr, addends, ← ih, hl, hr]
  | operand e hoperand => simp [concatParts_operand hoperand, addends_operand hoperand]

theorem concatParts_of_number (h : e.concatParts.2 = false) : e.concatParts.1 = [e] := by
  induction e using sum_induction with
  | behind p l r hl ih => simp [concatParts_behind_string hl] at h
  | first p l r hl hr ih => simp [concatParts_first_string hl hr] at h
  | number p l r hl hr ih => simp [concatParts_no_string hl hr]
  | operand e hoperand => simp [concatParts_operand hoperand]

/-- Added up from the left, the parts are the whole again. -/
theorem sum_concatParts (e : Expr) : unplaced (sum e.concatParts.1) = some (unplaced e) := by
  induction e using sum_induction with
  | behind p l r hl ih =>
    rw [concatParts_behind_string hl]
    cases hsum : sum l.concatParts.1 with
    | none => simp [hsum] at ih
    | some l' =>
      rw [hsum] at ih
      have hleft : unplaced l' = unplaced l := by simpa using ih
      simp [sum_concat hsum, hleft]
  | first p l r hl hr ih => simp [concatParts_first_string hl hr, sum]
  | number p l r hl hr ih => simp [concatParts_no_string hl hr, sum]
  | operand e hoperand => simp [concatParts_operand hoperand, sum]

/-- The operands of a sum from its first string literal on. -/
def fromString (e : Expr) : List Expr :=
  e.addends.dropWhile fun d => !d.isStringLiteral

theorem isEmpty_fromString (e : Expr) : e.fromString.isEmpty = !e.concatParts.2 := by
  rw [concatParts_isString, fromString]
  induction e.addends with
  | nil => rfl
  | cons d ds ih => cases hd : d.isStringLiteral <;> simp [hd, ih]

theorem fromString_add (p : Pos) (l r : Expr) : (binary p .add l r).fromString =
    if l.concatParts.2 then l.fromString ++ [r] else if r.isStringLiteral then [r] else [] := by
  have hempty := isEmpty_fromString l
  rw [fromString] at hempty ⊢
  rw [addends, List.dropWhile_append, hempty]
  cases l.concatParts.2 <;> cases hr : r.isStringLiteral <;> simp [fromString, hr]

/-- The operands from the first string literal on are parts of their own; all that stands before
them is one part. -/
theorem concatParts_eq_append (e : Expr) :
    ∃ front, front.length ≤ 1 ∧ e.concatParts.1 = front ++ e.fromString := by
  induction e using sum_induction with
  | behind p l r hl ih =>
    obtain ⟨front, hfront, hparts⟩ := ih
    exact ⟨front, hfront, by simp [concatParts_behind_string hl, fromString_add, hl, hparts]⟩
  | first p l r hl hr ih =>
    exact ⟨[l], by simp, by simp [concatParts_first_string hl hr, fromString_add, hl, hr]⟩
  | number p l r hl hr ih =>
    refine ⟨[binary p .add l r], by simp, ?_⟩
    simp [concatParts_no_string hl hr, fromString_add, hl, hr]
  | operand e hoperand =>
    rw [concatParts_operand hoperand, fromString, addends_operand hoperand]
    cases he : e.isStringLiteral with
    | true => exact ⟨[], by simp, by simp [he]⟩
    | false => exact ⟨[e], by simp, by simp [he]⟩

end Parts

/-! ## What the parts say -/

section Value

variable {ν : Type} {A : Addition ν} {operand : Expr → Value ν} {e : Expr}

theorem value_of_isStringLiteral (h : e.isStringLiteral = true) :
    e.value A operand = operand e := by
  cases e with
  | literal => rfl
  | _ => cases h

/-- What is taken for a string is one, and says what its parts say one behind the other. -/
theorem value_of_isString (hstring : ∀ d, d.isStringLiteral = true → ∃ s, operand d = .string s)
    (h : e.concatParts.2 = true) :
    e.value A operand = .string (Text.concat (e.concatParts.1.map fun d =>
      A.write (d.value A operand))) := by
  induction e using sum_induction with
  | behind p l r hl ih =>
    rw [value, ih hl, A.plus_string_left, concatParts_behind_string hl, List.map_append,
      Text.concat_append]
    simp [Text.concat]
  | first p l r hl hr ih =>
    obtain ⟨s, hs⟩ := hstring r hr
    rw [value, concatParts_first_string hl hr, List.map_cons, List.map_singleton,
      value_of_isStringLiteral hr, hs, A.plus_string_right]
    simp [Text.concat, Addition.write]
  | number p l r hl hr ih => simp [concatParts_no_string hl hr] at h
  | operand e hoperand =>
    rw [concatParts_operand hoperand] at h ⊢
    obtain ⟨s, hs⟩ := hstring e h
    rw [List.map_singleton, value_of_isStringLiteral h, hs]
    simp [Text.concat, Addition.write]

end Value

/-- **Splitting a sum.**  The parts of an expression are the expression again when they are added
up from the left.  They make a string just if an operand of the sum is a string literal; each
operand from the first such one on is a part, all that stands before it is one part, and without
one the expression is not split.  However the operands are evaluated, as long as string literals
are strings, an expression that makes a string says what its parts say one behind the other. -/
theorem concatParts_say_whole (e : Expr) :
    unplaced (sum e.concatParts.1) = some (unplaced e) ∧
      (e.concatParts.2 = true ↔ ∃ d ∈ e.addends, d.isStringLiteral = true) ∧
      (e.concatParts.2 = false → e.concatParts.1 = [e]) ∧
      (∃ front, front.length ≤ 1 ∧ e.concatParts.1 = front ++ e.fromString) ∧
      ∀ (ν : Type) (A : Addition ν) (operand : Expr → Value ν),
        (∀ d, d.isStringLiteral = true → ∃ s, operand d = .string s) → e.concatParts.2 = true →
          A.write (e.value A operand) =
            Text.concat (e.concatParts.1.map fun d => A.write (d.value A operand)) := by
  refine ⟨sum_concatParts e, ?_, concatParts_of_number, concatParts_eq_append e, ?_⟩
  · rw [concatParts_isString, List.any_eq_true]
  · intro ν A operand hstring h
    rw [value_of_isString hstring h]
    rfl

/-- The sum `1 + 2 + "x" + (3 + 4)`. -/
def mixedSum : Expr :=
  let literal (raw : String) : Expr := .literal .start raw
  let add (l r : Expr) : Expr := .binary .start .add l r
  add (add (add (literal "1") (literal "2")) (literal "\"x\"")) (add (literal "3") (literal "4"))

/-- Decimal numbers. -/
def decimals : Addition Nat :=
  ⟨(· + ·), fun n => String.ofList (Nat.toDigits 10 n)⟩

/-- The value of a literal: what stands between its quotes, or the number that its digits
spell. -/
def literalValue : Expr → Value Nat
  | .literal _ raw =>
    if raw.toList.head? == some '"' then .string (String.ofList raw.toList.tail.dropLast)
    else .number (raw.toList.foldl (fun n c => 10 * n + (c.toNat - '0'.toNat)) 0)
  | _ => .number 0

theorem concatParts_say_mixedSum :
    mixedSum.concatParts.1.length = 3 ∧
      decimals.write (mixedSum.value decimals literalValue) = "3x7" ∧
      Text.concat (mixedSum.concatParts.1.map fun d =>
        decimals.write (d.value decimals literalValue)) = "3x7" := by
  have hstring : ∀ d : Expr, d.isStringLiteral = true → ∃ s, literalValue d = .string s := by
    intro d hd
    cases d with
    | literal p raw => exact ⟨_, if_pos hd⟩
    | _ => cases hd
  have hvalue : decimals.write (mixedSum.value decimals literalValue) = "3x7" := by decide
  obtain ⟨-, -, -, -, hsay⟩ := concatParts_say_whole mixedSum
  exact ⟨by decide, hvalue, (hsay Nat decimals literalValue hstring (by decide)).symm.trans hvalue⟩

end Expr

end Pseudocode
