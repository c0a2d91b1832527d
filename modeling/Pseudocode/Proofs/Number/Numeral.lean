import Pseudocode.Number.Numeral
import Pseudocode.Proofs.Token.Scanning
set_option autoImplicit false

/-!
# Numbers in a text

The numbers that a text is cut into are numerals.  Those without a point are the decimal
forms of the natural numbers, leading zeros apart.
-/

namespace Pseudocode

namespace Numeral

/-- A run of digits is read to its end, which a point or the end of the text makes. -/
theorem digitRun_digits (value count : Nat) {digits rest : List Char}
    (hdigits : ∀ d ∈ digits, d.isDigit = true) (hrest : ∀ c ∈ rest.head?, c = '.') :
    digitRun value count (digits ++ rest) =
      (Nat.ofDigitChars 10 digits value, count + digits.length, rest) := by
  induction digits generalizing value count with
  | nil =>
    cases rest with
    | nil => rfl
    | cons c rest =>
      obtain rfl := hrest c rfl
      rfl
  | cons d digits ih =>
    have hd := hdigits d List.mem_cons_self
    have hvalue : Text.decimalValue? d = some (d.toNat - 0x30) := by
      simp [Text.decimalValue?, hd]
    have hscore : d ≠ '_' := by
      rintro rfl
      cases hd
    rw [List.cons_append, digitRun]
    · simp only [hvalue]
      rw [ih _ _ fun c hc => hdigits c (List.mem_cons_of_mem d hc)]
      rw [Nat.ofDigitChars_cons, Nat.mul_comm 10 value, List.length_cons, Nat.add_assoc,
        Nat.add_comm 1]
      rfl
    · intro c cs h
      exact absurd h hscore

/-- Digits, and a point with more digits, make a numeral. -/
theorem read?_isSome {digits tail : List Char} (hne : digits ≠ [])
    (hdigits : ∀ d ∈ digits, d.isDigit = true)
    (htail : tail = [] ∨ ∃ more, tail = '.' :: more ∧ ∀ d ∈ more, d.isDigit = true) :
    (read? (digits ++ tail)).isSome = true := by
  have hlen : 0 + digits.length ≠ 0 := by
    simpa using hne
  have hhead : ∀ c ∈ tail.head?, c = '.' := by
    rcases htail with rfl | ⟨more, rfl, -⟩ <;> simp
  unfold read?
  rw [digitRun_digits 0 0 hdigits hhead]
  simp only [if_neg hlen]
  rcases htail with rfl | ⟨more, rfl, hmore⟩
  · rfl
  · have hrun : digitRun (Nat.ofDigitChars 10 digits 0) 0 (more ++ []) = _ :=
      digitRun_digits _ _ hmore (by simp)
    rw [List.append_nil] at hrun
    simp only [hrun]
    rfl

end Numeral

/-- A number is a run of digits, with a point and more digits behind it or not. -/
theorem Token.number_shape {raw : String} (h : isLexeme .number raw = true) :
    ∃ digits tail, raw.toList = digits ++ tail ∧ digits ≠ [] ∧ (∀ d ∈ digits, d.isDigit = true) ∧
      (tail = [] ∨ ∃ more, tail = '.' :: more ∧ ∀ d ∈ more, d.isDigit = true) := by
  obtain ⟨c, cs, rfl, hlexeme⟩ := isLexeme_iff.mp h
  have hc : c.isDigit = true := starts_of_lexeme hlexeme
  have hlen : numberLength cs = cs.length := by
    unfold lexeme at hlexeme
    split at hlexeme
    · have hkind := congrArg Prod.fst (Except.ok.inj hlexeme)
      dsimp only [wordKind] at hkind
      split at hkind <;> cases hkind
    · exact congrArg Prod.snd (Except.ok.inj hlexeme)
  obtain ⟨digits, tail, rfl, hdigits, htail⟩ := exists_run Char.isDigit cs
  refine ⟨c :: digits, tail, by simp, by simp, ?_, ?_⟩
  · intro d hd
    rcases List.mem_cons.mp hd with rfl | hd
    · exact hc
    · exact hdigits d hd
  · by_cases hpoint : tail.head? = some '.'
    · obtain ⟨fraction, rfl⟩ := List.head?_eq_some_iff.mp hpoint
      obtain ⟨more, rest, rfl, hmore, hrest⟩ := exists_run Char.isDigit fraction
      have hall := numberLength_point hdigits hmore hrest
      rw [List.append_assoc, List.cons_append, hlen] at hall
      obtain rfl : rest = [] := by simpa using hall
      exact .inr ⟨more, by simp, hmore⟩
    · have hall := numberLength_digits hdigits fun c hc => ⟨htail c hc, fun h => hpoint (h ▸ hc)⟩
      rw [hlen] at hall
      exact .inl (by simpa using hall)

/-- Nothing is dropped from a list without characters to drop. -/
theorem dropWhile_dense {q : Char → Bool} {cs : List Char} (h : ∀ c ∈ cs, q c = false) :
    cs.dropWhile q = cs := by
  cases cs with
  | nil => rfl
  | cons c cs => simp [h c List.mem_cons_self]

theorem Numeral.isDigit_bounds {c : Char} (h : c.isDigit = true) :
    0x30 ≤ c.toNat ∧ c.toNat ≤ 0x39 := by
  simp only [Char.isDigit, Bool.and_eq_true, decide_eq_true_eq, UInt32.le_iff_toNat_le] at h
  exact h

theorem Numeral.isPadding_of_isDigit {c : Char} (h : c.isDigit = true) : isPadding c = false := by
  have hbounds := isDigit_bounds h
  have hblank : Text.isBlank c = false := by
    rw [Text.isBlank, Text.inRanges, List.any_eq_false]
    intro range hrange
    have hranges : ∀ range ∈ Text.blankRanges, range.2 < 0x30 ∨ 0x39 < range.1 := by decide
    have hrange := hranges range hrange
    simp only [Bool.and_eq_true, decide_eq_true_eq]
    omega
  rw [isPadding, hblank, Bool.false_and]

/-- The text of a number is a numeral. -/
theorem Numeral.value?_isSome {raw : String} (h : Token.isLexeme .number raw = true) :
    (value? raw).isSome = true := by
  obtain ⟨digits, tail, htext, hne, hdigits, htail⟩ := Token.number_shape h
  have hdense : ∀ c ∈ raw.toList, isPadding c = false := by
    intro c hc
    rw [htext] at hc
    rcases List.mem_append.mp hc with hc | hc
    · exact isPadding_of_isDigit (hdigits c hc)
    · rcases htail with rfl | ⟨more, rfl, hmore⟩
      · cases hc
      · rcases List.mem_cons.mp hc with rfl | hc
        · decide
        · exact isPadding_of_isDigit (hmore c hc)
  have hkept : (raw.toList.reverse.dropWhile isPadding).reverse = raw.toList := by
    rw [dropWhile_dense fun c hc => hdense c (List.mem_reverse.mp hc), List.reverse_reverse]
  unfold value?
  rw [hkept, htext, Option.isSome_map]
  exact read?_isSome hne hdigits htail

/-! ## Integers -/

namespace Numeral

/-- The text is a run of digits. -/
def IsInteger (raw : String) : Prop :=
  raw.toList ≠ [] ∧ ∀ c ∈ raw.toList, c.isDigit = true

instance (raw : String) : Decidable (IsInteger raw) :=
  decidable_of_decidable_of_iff (p := raw.toList ≠ [] ∧ raw.toList.all Char.isDigit = true)
    (and_congr Iff.rfl List.all_eq_true)

/-- The number that a run of digits stands for. -/
def integer (raw : String) : Nat :=
  Nat.ofDigitChars 10 raw.toList 0

variable {raw : String}

theorem IsInteger.isIntended (h : IsInteger raw) : isIntended raw = true := by
  obtain ⟨hne, hdigits⟩ := h
  unfold Numeral.isIntended
  cases hraw : raw.toList with
  | nil => exact absurd hraw hne
  | cons c cs =>
    have hc : c.isDigit = true := hdigits c (by simp [hraw])
    simpa using Text.isDigit_of_isDigit hc

/-- A run of digits is rounded to a floating-point number. -/
theorem IsInteger.value? (h : IsInteger raw) :
    value? raw = some (Binary64.ofDecimal (integer raw) 0) := by
  obtain ⟨hne, hdigits⟩ := h
  have hkept : (raw.toList.reverse.dropWhile isPadding).reverse = raw.toList := by
    rw [dropWhile_dense, List.reverse_reverse]
    intro c hc
    exact isPadding_of_isDigit (hdigits c (List.mem_reverse.mp hc))
  have hrun : digitRun 0 0 (raw.toList ++ []) = _ := digitRun_digits 0 0 hdigits (by simp)
  have hlen : 0 + raw.toList.length ≠ 0 := by simpa using hne
  rw [List.append_nil] at hrun
  have hread : read? raw.toList = some (integer raw, 0) := by
    unfold read?
    rw [hrun]
    simp only [if_neg hlen]
    rfl
  unfold Numeral.value?
  simp only [hkept, hread]
  rfl

theorem isWordStart_of_isDigit {c : Char} (h : c.isDigit = true) :
    Token.isWordStart c = false := by
  have hbounds := isDigit_bounds h
  have hscore : c ≠ '_' := by
    rintro rfl
    cases h
  have halpha : c.isAlpha = false := by
    have hval : c.val.toNat ≤ 0x39 := hbounds.2
    unfold Char.isAlpha Char.isUpper Char.isLower
    simp only [Bool.or_eq_false_iff, Bool.and_eq_false_iff, decide_eq_false_iff_not,
      UInt32.le_iff_toNat_le]
    have hupper : 'A'.val.toNat = 0x41 := rfl
    have hlower : 'a'.val.toNat = 0x61 := rfl
    omega
  simp [Token.isWordStart, halpha, hscore]

/-- A run of digits is one token. -/
theorem IsInteger.isLexeme (h : IsInteger raw) : Token.isLexeme .number raw = true := by
  obtain ⟨hne, hdigits⟩ := h
  unfold Token.isLexeme
  cases hraw : raw.toList with
  | nil => exact absurd hraw hne
  | cons c cs =>
    have hc : c.isDigit = true := hdigits c (by simp [hraw])
    have hcs : ∀ d ∈ cs, d.isDigit = true := fun d hd => hdigits d (by simp [hraw, hd])
    have hword : Token.isWordStart c = false := isWordStart_of_isDigit hc
    have hlen : Token.numberLength (cs ++ []) = _ := Token.numberLength_digits hcs (by simp)
    rw [List.append_nil] at hlen
    simp [Token.lexeme, hword, hc, hlen]

/-- The decimal form of a number is a run of digits that stands for the number. -/
theorem isInteger_repr (n : Nat) : IsInteger (Nat.repr n) ∧ integer (Nat.repr n) = n := by
  have htext : (Nat.repr n).toList = Nat.toDigits 10 n := by
    rw [Nat.repr, String.toList_ofList]
  refine ⟨⟨?_, ?_⟩, ?_⟩
  · rw [htext]
    exact Nat.toDigits_ne_nil
  · intro c hc
    rw [htext] at hc
    exact Nat.isDigit_of_mem_toDigits (by decide) (by decide) hc
  · rw [integer, htext, Nat.ofDigitChars_ten_toDigits]

end Numeral

end Pseudocode
