import Mathlib.Tactic.Ring
import Pseudocode.Number.Shortest
set_option autoImplicit false

/-!
# Integers as floating-point numbers

Up to `2 ^ 53` in magnitude every integer is a floating-point number, and sums of integers
that stay there are exact.  A sum that leaves this range does not come back by rounding.
-/

namespace Pseudocode.Binary64

/-- A quotient without a remainder is not rounded. -/
theorem nearest_mul {den : Nat} (hden : 0 < den) (n : Nat) : nearest (n * den) den = n := by
  simp [nearest, Nat.mul_div_cancel n hden, hden]

/-- The exponent of a quotient without a remainder. -/
theorem binaryExponent_mul {n den : Nat} (hn : n ≠ 0) (hden : den ≠ 0) :
    binaryExponent (n * den) den = n.log2 := by
  have hprod : n * den ≠ 0 := Nat.mul_ne_zero hn hden
  have hself := Nat.log2_self_le hn
  have hlt : n < 2 ^ (n.log2 + 1) := (Nat.log2_lt hn).mp (Nat.lt_succ_self _)
  have hdenself := Nat.log2_self_le hden
  have hdenlt : den < 2 ^ (den.log2 + 1) := (Nat.log2_lt hden).mp (Nat.lt_succ_self _)
  -- The logarithm of a product is the sum of the logarithms, or greater by one.
  have hlower : n.log2 + den.log2 ≤ (n * den).log2 := by
    rw [Nat.le_log2 hprod, Nat.pow_add]
    exact Nat.mul_le_mul hself hdenself
  have hupper : (n * den).log2 < n.log2 + den.log2 + 2 := by
    rw [Nat.log2_lt hprod]
    calc n * den < 2 ^ (n.log2 + 1) * 2 ^ (den.log2 + 1) :=
          Nat.mul_lt_mul_of_lt_of_le hlt (Nat.le_of_lt hdenlt) (Nat.two_pow_pos _)
      _ = 2 ^ (n.log2 + den.log2 + 2) := by rw [← Nat.pow_add]; congr 1; omega
  have hpower : ∀ k : Nat, powerLe k (n * den) den = decide (2 ^ k ≤ n) := by
    intro k
    have hpos : 0 < den := Nat.pos_of_ne_zero hden
    simp only [powerLe, Int.natCast_nonneg, if_true, Int.toNat_natCast]
    rw [decide_eq_decide, Nat.mul_comm n den]
    exact Nat.mul_le_mul_left_iff hpos
  unfold binaryExponent
  by_cases hcase : (n * den).log2 = n.log2 + den.log2
  · have he : (((n * den).log2 : Int) - den.log2) = (n.log2 : Nat) := by omega
    simp only [he, hpower, decide_eq_true_eq, if_pos hself]
  · have he : (((n * den).log2 : Int) - den.log2) = (n.log2 + 1 : Nat) := by omega
    simp only [he, hpower, decide_eq_true_eq, if_neg (Nat.not_le.mpr hlt)]
    omega

/-- The integer of a sign and a magnitude. -/
def signed (negative : Bool) (n : Nat) : Int :=
  if negative then -(n : Int) else n

theorem toInt?_scaled (negative : Bool) (m k : Nat) :
    (finite negative m k).toInt? = some (signed negative (m * 2 ^ k)) := by
  cases negative <;> simp [toInt?, signed]

theorem toInt?_shifted (negative : Bool) (n k : Nat) :
    (finite negative (n * 2 ^ k) (-(k : Int))).toInt? = some (signed negative n) := by
  have hpos := Nat.two_pow_pos k
  cases k with
  | zero => simpa using toInt?_scaled negative n 0
  | succ k =>
    have hneg : ¬ (0 : Int) ≤ -((k + 1 : Nat) : Int) := by omega
    simp only [toInt?, if_neg hneg, Int.neg_neg, Int.toNat_natCast, Nat.pow_eq, Nat.mul_mod_left,
      if_true, Nat.mul_div_cancel n hpos]
    cases negative <;> simp [signed]

theorem pack_of_lt {negative : Bool} {m : Nat} {e : Int} (hm : m < 2 ^ mantissaBits)
    (he : e ≤ greatestExponent) : pack negative m e = finite negative m e := by
  simp only [pack, Nat.pow_eq, if_neg (Nat.ne_of_lt hm), if_neg (Int.not_lt.mpr he)]

/-- An integer up to `2 ^ 53` is not rounded, whatever quotient it is given as. -/
theorem toInt?_round {n den : Nat} (hden : 0 < den) (hn : n ≤ 2 ^ 53) (negative : Bool) :
    (round negative (n * den) den).toInt? = some (signed negative n) := by
  by_cases hzero : n = 0
  · subst hzero
    have hshifted := toInt?_shifted negative 0 1074
    rw [Nat.zero_mul] at hshifted ⊢
    exact hshifted
  · have hprod : n * den ≠ 0 := Nat.mul_ne_zero hzero (Nat.ne_of_gt hden)
    have hself := Nat.log2_self_le hzero
    have hlt : n < 2 ^ (n.log2 + 1) := (Nat.log2_lt hzero).mp (Nat.lt_succ_self _)
    have hexponent : max leastExponent (binaryExponent (n * den) den - (mantissaBits - 1)) =
        (n.log2 : Int) - 52 := by
      rw [binaryExponent_mul hzero (Nat.ne_of_gt hden)]
      simp only [leastExponent, mantissaBits]
      omega
    unfold round
    simp only [if_neg hprod, hexponent, Nat.pow_eq]
    rcases Nat.lt_or_ge n.log2 52 with hsmall | hlarge
    · -- A mantissa of fewer bits is filled up with zeros.
      obtain ⟨k, hk⟩ : ∃ k, n.log2 + k = 52 := ⟨52 - n.log2, by omega⟩
      have he : (n.log2 : Int) - 52 = -(k : Int) := by omega
      have hneg : ¬ (0 : Int) ≤ -(k : Int) := by omega
      have hmantissa : n * 2 ^ k < 2 ^ mantissaBits := by
        calc n * 2 ^ k < 2 ^ (n.log2 + 1) * 2 ^ k :=
              Nat.mul_lt_mul_of_pos_right hlt (Nat.two_pow_pos k)
          _ = 2 ^ mantissaBits := by rw [← Nat.pow_add, mantissaBits]; congr 1; omega
      have hshift : n * den * 2 ^ k = n * 2 ^ k * den := by ring
      rw [he, if_neg hneg, Int.neg_neg, Int.toNat_natCast, hshift, nearest_mul hden,
        pack_of_lt hmantissa (by simp only [greatestExponent]; omega), toInt?_shifted]
    · -- Of the numbers with more bits there is only `2 ^ 53`.
      have hbits : n.log2 ≤ 53 := by
        have hle : 2 ^ n.log2 ≤ 2 ^ 53 := Nat.le_trans hself hn
        exact (Nat.pow_le_pow_iff_right (by decide)).mp hle
      obtain ⟨m, k, hk, hmk, hm⟩ : ∃ m k, n.log2 = 52 + k ∧ n = m * 2 ^ k ∧
          m < 2 ^ mantissaBits := by
        rcases Nat.eq_or_lt_of_le hbits with hfull | hless
        · refine ⟨2 ^ 52, 1, hfull, ?_, by decide⟩
          rw [hfull] at hself
          omega
        · have hlog : n.log2 = 52 := by omega
          rw [hlog] at hlt
          exact ⟨n, 0, hlog, by simp, hlt⟩
      have he : (n.log2 : Int) - 52 = (k : Int) := by omega
      have hquotient : n * den = m * (den * 2 ^ k) := by
        rw [hmk]
        ring
      have hle : (k : Int) ≤ greatestExponent := by
        simp only [greatestExponent]
        omega
      rw [he, if_pos (Int.natCast_nonneg k), Int.toNat_natCast, hquotient,
        nearest_mul (Nat.mul_pos hden (Nat.two_pow_pos k)), pack_of_lt hm hle, toInt?_scaled, ← hmk]

/-- Rounding a quotient goes down or up to the next natural number. -/
theorem nearest_bounds (num den : Nat) :
    num / den ≤ nearest num den ∧ nearest num den ≤ num / den + 1 := by
  unfold nearest
  dsimp only
  split_ifs <;> omega

/-- Beyond `2 ^ 53` an integer of one bit more is rounded to an integer that is beyond, too. -/
theorem exists_toInt?_round {n den : Nat} (hden : 0 < den) (hn : 2 ^ 53 ≤ n) (hlt : n < 2 ^ 54)
    (negative : Bool) :
    ∃ m, 2 ^ 53 ≤ m ∧ (round negative (n * den) den).toInt? = some (signed negative m) := by
  have hzero : n ≠ 0 := by omega
  have hprod : n * den ≠ 0 := Nat.mul_ne_zero hzero (Nat.ne_of_gt hden)
  have hlog : n.log2 = 53 := by
    have hupper : n.log2 < 54 := (Nat.log2_lt hzero).mpr hlt
    have hlower : 53 ≤ n.log2 := (Nat.le_log2 hzero).mpr hn
    omega
  have hexponent : max leastExponent (binaryExponent (n * den) den - (mantissaBits - 1)) =
      ((1 : Nat) : Int) := by
    rw [binaryExponent_mul hzero (Nat.ne_of_gt hden), hlog]
    rfl
  have hhalf : n * den / (den * 2 ^ 1) = n / 2 := by
    rw [Nat.mul_comm n den, Nat.mul_div_mul_left n _ hden, Nat.pow_one]
  obtain ⟨hlow, hhigh⟩ := nearest_bounds (n * den) (den * 2 ^ 1)
  rw [hhalf] at hlow hhigh
  unfold round
  simp only [if_neg hprod, hexponent, if_pos (Int.natCast_nonneg 1), Int.toNat_natCast,
    Nat.pow_eq]
  generalize nearest (n * den) (den * 2 ^ 1) = m at hlow hhigh
  refine ⟨m * 2 ^ 1, by omega, ?_⟩
  by_cases hcarry : m = 2 ^ mantissaBits
  · -- The mantissa has grown by a bit.
    have hpack : pack negative m (1 : Nat) =
        finite negative (2 ^ (mantissaBits - 1)) (2 : Nat) := by
      simp only [pack, hcarry, Nat.pow_eq, if_true]
      rfl
    rw [hpack, toInt?_scaled, hcarry]
    rfl
  · have hm : m < 2 ^ mantissaBits := by
      simp only [mantissaBits] at hcarry ⊢
      omega
    rw [pack_of_lt hm (by decide), toInt?_scaled]

/-! ## Sums -/

theorem signed_mul (negative : Bool) (n k : Nat) :
    signed negative (n * k) = signed negative n * k := by
  cases negative <;> simp [signed]

theorem signed_natAbs {negative : Bool} {i : Int} (h : negative = true ↔ i < 0) :
    signed negative i.natAbs = i := by
  cases negative with
  | true =>
    have hneg : i < 0 := h.mp rfl
    show -(i.natAbs : Int) = i
    omega
  | false =>
    have hnonneg : ¬ i < 0 := fun hneg => Bool.false_ne_true (h.mpr hneg)
    show (i.natAbs : Int) = i
    omega

theorem toInt?_neg {x : Binary64} {i : Int} (h : x.toInt? = some i) : x.neg.toInt? = some (-i) := by
  cases x with
  | finite negative m e =>
    simp only [toInt?, neg] at h ⊢
    split at h
    · rename_i he
      rw [if_pos he, ← Option.some.inj h]
      cases negative <;> simp
    · rename_i he
      rw [if_neg he]
      split at h
      · rename_i hm
        rw [if_pos hm, ← Option.some.inj h]
        cases negative <;> simp
      · cases h
  | _ => cases h

/-- A number that is an integer has zeros behind its mantissa or at the end of it. -/
theorem exists_of_toInt? {negative : Bool} {m : Nat} {e i : Int}
    (h : (finite negative m e).toInt? = some i) :
    (∃ k : Nat, e = k ∧ i = signed negative (m * 2 ^ k)) ∨
      ∃ k n : Nat, e = -(k : Int) ∧ m = n * 2 ^ k ∧ i = signed negative n := by
  rcases Int.le_total 0 e with he | he
  · obtain ⟨k, rfl⟩ := Int.eq_ofNat_of_zero_le he
    rw [toInt?_scaled] at h
    exact .inl ⟨k, rfl, (Option.some.inj h).symm⟩
  · obtain ⟨k, hk⟩ := Int.eq_ofNat_of_zero_le (Int.neg_nonneg.mpr he)
    obtain rfl : e = -(k : Int) := by omega
    by_cases hm : m % 2 ^ k = 0
    · obtain ⟨n, rfl⟩ := Nat.dvd_of_mod_eq_zero hm
      rw [Nat.mul_comm, toInt?_shifted] at h
      exact .inr ⟨k, n, rfl, Nat.mul_comm _ _, (Option.some.inj h).symm⟩
    · have hpos : ¬ (0 : Int) ≤ -(k : Int) := by
        intro hle
        obtain rfl : k = 0 := by omega
        exact hm (Nat.mod_one m)
      simp only [toInt?, if_neg hpos, Int.neg_neg, Int.toNat_natCast, Nat.pow_eq, if_neg hm] at h
      cases h

/-- An integer in units of a power of two that the number is a multiple of. -/
theorem unitsOf_eq {negative : Bool} {m : Nat} {e unit i : Int}
    (h : (finite negative m e).toInt? = some i) (hunit : unit ≤ e) :
    (0 ≤ unit → unitsOf negative m e unit * (2 ^ unit.toNat : Nat) = i) ∧
      (unit < 0 → unitsOf negative m e unit = i * (2 ^ (-unit).toNat : Nat)) := by
  have hunits : unitsOf negative m e unit = signed negative (m * 2 ^ (e - unit).toNat) := rfl
  rw [hunits]
  rcases exists_of_toInt? h with ⟨k, rfl, rfl⟩ | ⟨k, n, rfl, rfl, rfl⟩
  · refine ⟨fun hnonneg => ?_, fun hneg => ?_⟩
    · rw [← signed_mul, Nat.mul_assoc, ← Nat.pow_add]
      congr 3
      omega
    · rw [← signed_mul, Nat.mul_assoc, ← Nat.pow_add]
      congr 3
      omega
  · refine ⟨fun hnonneg => ?_, fun hneg => ?_⟩
    · obtain rfl : k = 0 := by omega
      obtain rfl : unit = 0 := by omega
      simp
    · rw [← signed_mul, Nat.mul_assoc, ← Nat.pow_add]
      congr 3
      omega

/-- A positive factor keeps the sign. -/
theorem sign_mul (a : Int) {k : Nat} (hk : 0 < k) :
    (a * k = 0 ↔ a = 0) ∧ (a * k < 0 ↔ a < 0) := by
  have hpos : (0 : Int) < k := Int.natCast_pos.mpr hk
  refine ⟨?_, ?_⟩
  · rw [Int.mul_eq_zero]
    exact or_iff_left (Int.ne_of_gt hpos)
  · refine ⟨fun h => Int.not_le.mp fun hle => ?_, fun h => Int.mul_neg_of_neg_of_pos h hpos⟩
    exact Int.not_le.mpr h (Int.mul_nonneg hle (Int.le_of_lt hpos))

/-- A sum of integers is rounded once, from the integer that it is. -/
theorem exists_add_eq_round {x y : Binary64} {i j : Int} (hx : x.toInt? = some i)
    (hy : y.toInt? = some j) :
    ∃ negative den, 0 < den ∧ signed negative (i + j).natAbs = i + j ∧
      x.add y = round negative ((i + j).natAbs * den) den := by
  cases x with
  | finite s m e =>
    cases y with
    | finite t n f =>
      obtain ⟨hxpos, hxneg⟩ := unitsOf_eq hx (Int.min_le_left e f)
      obtain ⟨hypos, hyneg⟩ := unitsOf_eq hy (Int.min_le_right e f)
      generalize hsum : unitsOf s m e (min e f) + unitsOf t n f (min e f) = sum
      -- In units of the smaller power of two the sum is `i + j`, or a part of it.
      have hratio : ∃ den, 0 < den ∧
          ratio sum.natAbs 2 (min e f) = ((i + j).natAbs * den, den) ∧
          (sum = 0 ↔ i + j = 0) ∧ (sum < 0 ↔ i + j < 0) := by
        rcases lt_or_ge (min e f) 0 with hneg | hnonneg
        · have htotal : sum = (i + j) * (2 ^ (-min e f).toNat : Nat) := by
            rw [← hsum, hxneg hneg, hyneg hneg, Int.add_mul]
          refine ⟨2 ^ (-min e f).toNat, Nat.two_pow_pos _, ?_, ?_⟩
          · rw [ratio, if_neg (Int.not_le.mpr hneg), htotal, Int.natAbs_mul, Int.natAbs_natCast,
              Nat.pow_eq]
          · rw [htotal]
            exact sign_mul (i + j) (Nat.two_pow_pos _)
        · have htotal : i + j = sum * (2 ^ (min e f).toNat : Nat) := by
            rw [← hsum, Int.add_mul, hxpos hnonneg, hypos hnonneg]
          refine ⟨1, Nat.one_pos, ?_, ?_⟩
          · rw [ratio, if_pos hnonneg, htotal, Int.natAbs_mul, Int.natAbs_natCast, Nat.mul_one,
              Nat.pow_eq]
          · rw [htotal]
            obtain ⟨hzero, hneg⟩ := sign_mul sum (Nat.two_pow_pos (min e f).toNat)
            exact ⟨hzero.symm, hneg.symm⟩
      obtain ⟨den, hden, hratio, hzero, hneg⟩ := hratio
      simp only [add, hsum]
      by_cases hnone : sum = 0
      · refine ⟨s && t, 1, Nat.one_pos, ?_, ?_⟩
        · rw [hzero.mp hnone]
          cases s && t <;> rfl
        · rw [if_pos hnone, hzero.mp hnone]
          rfl
      · refine ⟨decide (sum < 0), den, hden, signed_natAbs (by simpa using hneg), ?_⟩
        rw [if_neg hnone, hratio]
    | _ => cases hy
  | _ => cases hx

/-- A sum of integers up to `2 ^ 53` is exact. -/
theorem toInt?_add {x y : Binary64} {i j : Int} (hx : x.toInt? = some i) (hy : y.toInt? = some j)
    (h : (i + j).natAbs ≤ 2 ^ 53) : (x.add y).toInt? = some (i + j) := by
  obtain ⟨negative, den, hden, hsigned, hround⟩ := exists_add_eq_round hx hy
  rw [hround, toInt?_round hden h, hsigned]

/-- A sum of integers beyond `2 ^ 53` in magnitude may be rounded, but stays beyond. -/
theorem toInt?_add_large {x y : Binary64} {i j : Int} (hx : x.toInt? = some i)
    (hy : y.toInt? = some j) (hlarge : 2 ^ 53 ≤ (i + j).natAbs) (hlt : (i + j).natAbs < 2 ^ 54) :
    ∃ k, (x.add y).toInt? = some k ∧ (i + j < 0 → k ≤ -2 ^ 53) ∧ (0 < i + j → 2 ^ 53 ≤ k) := by
  obtain ⟨negative, den, hden, hsigned, hround⟩ := exists_add_eq_round hx hy
  obtain ⟨n, hn, hinteger⟩ := exists_toInt?_round hden hlarge hlt negative
  refine ⟨signed negative n, by rw [hround, hinteger], ?_⟩
  cases negative with
  | true =>
    simp only [signed, if_true] at hsigned ⊢
    omega
  | false =>
    simp only [signed, Bool.false_eq_true, if_false] at hsigned ⊢
    omega

/-- A number that is a positive integer is positive. -/
theorem isPositive_of_toInt? {x : Binary64} {i : Int} (h : x.toInt? = some i) (hi : 0 < i) :
    x.isPositive = true := by
  cases x with
  | finite negative m e =>
    have hmagnitude : ∃ n : Nat, i = signed negative n ∧ (m = 0 → n = 0) := by
      rcases exists_of_toInt? h with ⟨k, -, rfl⟩ | ⟨k, n, -, rfl, rfl⟩
      · exact ⟨m * 2 ^ k, rfl, fun hm => by rw [hm, Nat.zero_mul]⟩
      · exact ⟨n, rfl, fun hm => (Nat.mul_eq_zero.mp hm).resolve_right (Nat.two_pow_pos k).ne'⟩
    obtain ⟨n, rfl, hzero⟩ := hmagnitude
    cases negative with
    | true =>
      simp only [signed, if_true] at hi
      omega
    | false =>
      have hm : m ≠ 0 := by
        intro hm
        rw [hzero hm] at hi
        exact Int.lt_irrefl 0 hi
      simp [isPositive, hm]
  | _ => cases h

/-- The decimal form of an integer up to `2 ^ 53` is not rounded. -/
theorem toInt?_ofDecimal {n : Nat} (hn : n ≤ 2 ^ 53) :
    (ofDecimal n 0).toInt? = some (n : Int) := by
  have hround := toInt?_round Nat.one_pos hn false
  rw [Nat.mul_one] at hround
  have hdigits : digitCount n ≤ 16 :=
    (Nat.length_toDigits_le_iff (by decide) (by decide)).mpr (Nat.lt_of_le_of_lt hn (by decide))
  have hlarge : ¬ (310 : Int) < 0 + digitCount n := by omega
  have hsmall : ¬ (0 : Int) + digitCount n < -330 := by omega
  unfold ofDecimal
  by_cases hzero : n = 0
  · rw [if_pos hzero, ← hzero, hround]
    rfl
  · have hratio : ratio n 10 0 = (n, 1) := by simp [ratio]
    rw [if_neg hzero, if_neg hlarge, if_neg hsmall, hratio]
    exact hround

end Pseudocode.Binary64
