import Mathlib.Computability.Language
import Mathlib.Order.CompletePartialOrder
import Pseudocode.Proofs.Scope.Generics
import Pseudocode.Proofs.Token.Coverage
set_option autoImplicit false

/-!
# What the scope of the subset means

`refusals` is the scope as a table: a text is refused for the first line whose feature its
masked form has, and at the leftmost place of that feature.  The features are words, that is,
longest runs of word characters, a second word of the same kind, and a type with type
arguments, which is a regular language.  Nothing in the table speaks of pieces of a text.

The text is searched from the left.  Behind every front of it, what is found in the pieces of
the rest is what the table says of the places from there on.
-/

namespace Pseudocode

namespace Scope

open Text (isBlank isWordChar)
open Computability
open Language (append_mem_mul)

/-! ## The table -/

/-- The word stands at index `i` and is no part of a longer run of word characters. -/
def WordAt (cs : List Char) (i : Nat) (word : List Char) : Prop :=
  ∃ front rest, cs = front ++ word ++ rest ∧ front.length = i ∧ word ≠ [] ∧
    (∀ c ∈ word, isWordChar c = true) ∧ (∀ c ∈ front.getLast?, isWordChar c = false) ∧
    ∀ c ∈ rest.head?, isWordChar c = false

/-- White space, or nothing. -/
def blanks : Language Char :=
  {cs | ∀ c ∈ cs, isBlank c = true}

/-- Word characters, the first of which is one of the letters `A` to `Z`. -/
def capital : Language Char :=
  {cs | isCapitalized cs = true ∧ ∀ c ∈ cs, isWordChar c = true}

def sign (c : Char) : Language Char :=
  {[c]}

def bracketPair : Language Char :=
  blanks * sign '[' * blanks * sign ']'

/-- A type argument: a word and any number of pairs of brackets. -/
def argument : Language Char :=
  blanks * capital * bracketPair∗ * blanks

/-- Type arguments between commas, at least one. -/
def arguments : Language Char :=
  argument * (sign ',' * argument)∗

/-- A type and its arguments in angle brackets, which may enclose nothing. -/
def genericType : Language Char :=
  capital * blanks * sign '<' * (blanks + arguments) * sign '>'

/-- A type with arguments stands at index `i`, and no word character before it. -/
def GenericAt (cs : List Char) (i : Nat) : Prop :=
  ∃ front text rest, cs = front ++ text ++ rest ∧ front.length = i ∧ text ∈ genericType ∧
    ∀ c ∈ front.getLast?, isWordChar c = false

/-- What a text is refused for. -/
inductive Feature where
  | word (word : String)
  | wordAgain (word : String)
  | generic

/-- The feature shows at index `i`. -/
def Feature.At : (feature : Feature) → (cs : List Char) → (i : Nat) → Prop
  | .word w, cs, i => WordAt cs i w.toList
  | .wordAgain w, cs, i => WordAt cs i w.toList ∧ ∃ j < i, WordAt cs j w.toList
  | .generic, cs, i => GenericAt cs i

/-- What is refused, with the reason, in the order in which it is looked for. -/
def refusals : List (String × Feature) :=
  [("Interfaces are out of scope.", .word "interface"),
    ("Interfaces are out of scope.", .word "implements"),
    ("Inheritance is out of scope.", .word "extends"),
    ("Exceptions are out of scope.", .word "throws"),
    ("Exceptions are out of scope.", .word "try"),
    ("Exceptions are out of scope.", .word "catch"),
    ("Switch is out of scope.", .word "switch"),
    ("Generics are out of scope.", .generic),
    ("Multiple classes are out of scope.", .wordAgain "class")]

/-- The first line of a table that applies has this reason, and it applies at index `i` and
at no smaller one. -/
inductive RefusedAt (cs : List Char) : List (String × Feature) → String → Nat → Prop where
  | here {reason : String} {feature : Feature} {lines : List (String × Feature)} {i : Nat}
      (h : IsLeast {j | feature.At cs j} i) : RefusedAt cs ((reason, feature) :: lines) reason i
  | later {line : String × Feature} {lines : List (String × Feature)} {reason : String} {i : Nat}
      (hline : ∀ j, ¬ line.2.At cs j) (h : RefusedAt cs lines reason i) :
      RefusedAt cs (line :: lines) reason i

/-! ## Pieces behind white space -/

/-- No white space is a character of a word. -/
theorem isWordChar_of_isBlank {c : Char} (h : isBlank c = true) : isWordChar c = false := by
  have hall : Text.blankRanges.all (fun r =>
      (List.range' r.1 (r.2 + 1 - r.1)).all fun n => !isWordChar (Char.ofNat n)) = true := by
    decide +kernel
  obtain ⟨r, hr, hc⟩ := List.any_eq_true.mp h
  simp only [Bool.and_eq_true, decide_eq_true_eq] at hc
  have hmem : c.toNat ∈ List.range' r.1 (r.2 + 1 - r.1) :=
    List.mem_range'_1.mpr ⟨hc.1, by omega⟩
  have hnot := List.all_eq_true.mp (List.all_eq_true.mp hall r hr) c.toNat hmem
  rwa [Char.ofNat_toNat, Bool.not_eq_true'] at hnot

variable {p q : Pos} {c : Char} {cs gap word : List Char} {ps : List Piece}

/-- White space is no piece. -/
theorem pieces_blanks (hgap : gap ∈ blanks) :
    pieces false p (gap ++ cs) = pieces false (p.after gap) cs := by
  induction gap generalizing p with
  | nil => rfl
  | cons d gap ih =>
    obtain ⟨hd, hgap⟩ := List.forall_mem_cons.mp hgap
    rw [List.cons_append, pieces_blank ⟨isWordChar_of_isBlank hd, hd⟩]
    exact ih hgap

/-- Before the first piece there is white space. -/
theorem exists_of_pieces_cons {piece : Piece} (h : pieces false p cs = piece :: ps) :
    ∃ gap c cs', cs = gap ++ c :: cs' ∧ gap ∈ blanks ∧ isBlank c = false ∧
      pieces false (p.after gap) (c :: cs') = piece :: ps := by
  induction cs generalizing p with
  | nil => cases h
  | cons c cs ih =>
    by_cases hc : isBlank c = true
    · rw [pieces_blank ⟨isWordChar_of_isBlank hc, hc⟩] at h
      obtain ⟨gap, d, cs', rfl, hgap, hd, hpieces⟩ := ih h
      exact ⟨c :: gap, d, cs', rfl, List.forall_mem_cons.mpr ⟨hc, hgap⟩, hd, hpieces⟩
    · exact ⟨[], c, cs, rfl, List.forall_mem_nil _, Bool.eq_false_iff.mpr hc, h⟩

/-- The first piece is a sign. -/
theorem exists_of_pieces_sign (h : pieces false p cs = .sign c :: ps) :
    ∃ gap rest q, cs = gap ++ c :: rest ∧ gap ∈ blanks ∧ pieces false q rest = ps := by
  obtain ⟨gap, d, rest, rfl, hgap, hd, hpieces⟩ := exists_of_pieces_cons h
  by_cases hword : isWordChar d = true
  · simp [pieces, hword] at hpieces
  · rw [pieces_sign ⟨Bool.eq_false_iff.mpr hword, hd⟩] at hpieces
    obtain ⟨hsign, hps⟩ := List.cons.inj hpieces
    obtain rfl := Piece.sign.inj hsign
    exact ⟨gap, rest, _, rfl, hgap, hps⟩

/-- The first piece is a word. -/
theorem exists_of_pieces_word (h : pieces false p cs = .word q word :: ps) :
    ∃ gap rest r, cs = gap ++ (word ++ rest) ∧ gap ∈ blanks ∧
      (∀ d ∈ word, isWordChar d = true) ∧ pieces false r rest = ps := by
  obtain ⟨gap, d, tail, rfl, hgap, hd, hpieces⟩ := exists_of_pieces_cons h
  by_cases hchar : isWordChar d = true
  · obtain ⟨body, rest, rfl, hbody, hends⟩ := Token.exists_run isWordChar tail
    rw [← List.cons_append, pieces_word hchar hbody hends] at hpieces
    obtain ⟨hpiece, hps⟩ := List.cons.inj hpieces
    obtain ⟨-, rfl⟩ := Piece.word.inj hpiece
    exact ⟨gap, rest, _, rfl, hgap, List.forall_mem_cons.mpr ⟨hchar, hbody⟩, hps⟩
  · rw [pieces_sign ⟨Bool.eq_false_iff.mpr hchar, hd⟩] at hpieces
    cases (List.cons.inj hpieces).1

/-! ## Type arguments -/

/-- What may follow a type argument, up to the closing bracket. -/
def closing : Language Char :=
  bracketPair∗ * blanks * (sign ',' * argument)∗ * sign '>'

theorem bracketPair_mul_closing : bracketPair * closing ≤ closing := by
  have hpairs : bracketPair * bracketPair∗ ≤ bracketPair∗ := mul_kstar_le_kstar
  calc bracketPair * closing
      = bracketPair * bracketPair∗ * blanks * (sign ',' * argument)∗ * sign '>' := by
        simp only [closing, mul_assoc]
    _ ≤ closing := by
        unfold closing
        gcongr

theorem comma_mul_closing : blanks * sign ',' * blanks * capital * closing ≤ closing := by
  have hlist : sign ',' * argument * (sign ',' * argument)∗ ≤ (sign ',' * argument)∗ :=
    mul_kstar_le_kstar
  have hnone : 1 ≤ bracketPair∗ := one_le_kstar
  calc blanks * sign ',' * blanks * capital * closing
      = 1 * blanks * (sign ',' * argument * (sign ',' * argument)∗) * sign '>' := by
        simp only [closing, argument, mul_assoc, one_mul]
    _ ≤ closing := by
        unfold closing
        gcongr

theorem greater_le_closing : blanks * sign '>' ≤ closing := by
  have hnone : 1 ≤ bracketPair∗ := one_le_kstar
  have hlast : 1 ≤ (sign ',' * argument)∗ := one_le_kstar
  calc blanks * sign '>' = 1 * blanks * 1 * sign '>' := by simp only [one_mul, mul_one]
    _ ≤ closing := by
        unfold closing
        gcongr

/-- The arguments of a type, with the brackets round them. -/
def argumentList : Language Char :=
  blanks * sign '<' * (blanks + arguments) * sign '>'

theorem genericType_eq : genericType = capital * argumentList := by
  simp only [genericType, argumentList, mul_assoc]

theorem argumentList_eq : argumentList =
    blanks * sign '<' * (blanks * sign '>') + blanks * sign '<' * (blanks * capital * closing) := by
  simp only [argumentList, arguments, argument, closing, mul_assoc, add_mul, mul_add]

theorem exists_of_closesArguments (h : closesArguments (pieces false p cs) = true) :
    ∃ text ∈ closing, text <+: cs := by
  generalize hps : pieces false p cs = ps at h
  fun_induction closesArguments ps generalizing p cs with
  | case1 ps ih =>
    obtain ⟨gap, rest, q, rfl, hgap, hrest⟩ := exists_of_pieces_sign hps
    obtain ⟨gap', rest', r, rfl, hgap', hrest'⟩ := exists_of_pieces_sign hrest
    obtain ⟨text, htext, more, rfl⟩ := ih hrest' h
    have hpair : gap ++ ['['] ++ gap' ++ [']'] ∈ bracketPair :=
      append_mem_mul (append_mem_mul (append_mem_mul hgap rfl) hgap') rfl
    exact ⟨_, bracketPair_mul_closing (append_mem_mul hpair htext), more, by simp⟩
  | case2 q w ps ih =>
    obtain ⟨hw, h⟩ := Bool.and_eq_true_iff.mp h
    obtain ⟨gap, rest, q, rfl, hgap, hrest⟩ := exists_of_pieces_sign hps
    obtain ⟨gap', rest', r, rfl, hgap', hchars, hrest'⟩ := exists_of_pieces_word hrest
    obtain ⟨text, htext, more, rfl⟩ := ih hrest' h
    have hargument : gap ++ [','] ++ gap' ++ w ++ text ∈
        blanks * sign ',' * blanks * capital * closing :=
      append_mem_mul (append_mem_mul (append_mem_mul (append_mem_mul hgap rfl) hgap')
        ⟨hw, hchars⟩) htext
    exact ⟨_, comma_mul_closing hargument, more, by simp⟩
  | case3 ps =>
    obtain ⟨gap, rest, q, rfl, hgap, -⟩ := exists_of_pieces_sign hps
    exact ⟨_, greater_le_closing (append_mem_mul hgap rfl), rest, by simp⟩
  | case4 => cases h

/-- In the pieces of the characters, type arguments are closed. -/
def Closes (cs : List Char) : Prop :=
  ∀ p, closesArguments (pieces false p cs) = true

namespace Closes

variable {text : List Char}

/-- What closes type arguments does not continue a word. -/
theorem not_isWordChar (h : Closes cs) : ∀ d ∈ cs.head?, isWordChar d = false := by
  intro d hd
  obtain ⟨cs, rfl⟩ := List.head?_eq_some_iff.mp hd
  by_contra hword
  have hclosed := h .start
  rw [Bool.not_eq_false] at hword
  simp [pieces, hword, closesArguments] at hclosed

theorem append_of_blanks (h : Closes cs) (hgap : gap ∈ blanks) : Closes (gap ++ cs) := by
  intro p
  rw [pieces_blanks hgap]
  exact h _

theorem append_of_bracketPair (h : Closes cs) (htext : text ∈ bracketPair) :
    Closes (text ++ cs) := by
  obtain ⟨-, ⟨-, ⟨gap, hgap, -, rfl, rfl⟩, gap', hgap', rfl⟩, -, rfl, rfl⟩ := htext
  intro p
  have hcut : gap ++ ['['] ++ gap' ++ [']'] ++ cs = gap ++ '[' :: (gap' ++ ']' :: cs) := by simp
  rw [hcut, pieces_blanks hgap, pieces_sign (by decide), pieces_blanks hgap',
    pieces_sign (by decide)]
  exact h _

/-- What may be repeated before the end may stand there any number of times. -/
theorem append_of_kstar {l : Language Char}
    (hl : ∀ text ∈ l, ∀ cs, Closes cs → Closes (text ++ cs)) (h : Closes cs)
    (htext : text ∈ l∗) : Closes (text ++ cs) := by
  obtain ⟨texts, rfl, htexts⟩ := Language.mem_kstar.mp htext
  clear htext
  induction texts with
  | nil => exact h
  | cons first texts ih =>
    obtain ⟨hfirst, htexts⟩ := List.forall_mem_cons.mp htexts
    rw [List.flatten_cons, List.append_assoc]
    exact hl first hfirst _ (ih htexts)

theorem append_of_bracketPairs (h : Closes cs) (htext : text ∈ bracketPair∗) :
    Closes (text ++ cs) :=
  append_of_kstar (fun _ htext _ h => h.append_of_bracketPair htext) h htext

theorem append_of_argument (h : Closes cs) (htext : text ∈ sign ',' * argument) :
    Closes (text ++ cs) := by
  obtain ⟨-, rfl, -, ⟨-, ⟨-, ⟨gap, hgap, word, ⟨hcapital, hword⟩, rfl⟩, pairs, hpairs, rfl⟩,
    gap', hgap', rfl⟩, rfl⟩ := htext
  have hrest : Closes (pairs ++ (gap' ++ cs)) :=
    (h.append_of_blanks hgap').append_of_bracketPairs hpairs
  intro p
  cases word with
  | nil => cases hcapital
  | cons d word =>
    obtain ⟨hd, hword⟩ := List.forall_mem_cons.mp hword
    have hcut : [','] ++ (gap ++ (d :: word) ++ pairs ++ gap') ++ cs =
        ',' :: (gap ++ (d :: word ++ (pairs ++ (gap' ++ cs)))) := by simp
    rw [hcut, pieces_sign (by decide), pieces_blanks hgap,
      pieces_word hd hword hrest.not_isWordChar, closesArguments, hcapital, Bool.true_and]
    exact hrest _

theorem append_of_closing (htext : text ∈ closing) : Closes (text ++ cs) := by
  obtain ⟨-, ⟨-, ⟨pairs, hpairs, gap, hgap, rfl⟩, more, hmore, rfl⟩, -, rfl, rfl⟩ := htext
  have hend : Closes ('>' :: cs) := by
    intro p
    rw [pieces_sign (by decide), closesArguments]
  have hcut : pairs ++ gap ++ more ++ ['>'] ++ cs = pairs ++ (gap ++ (more ++ '>' :: cs)) := by simp
  rw [hcut]
  exact ((append_of_kstar (fun _ htext _ h => h.append_of_argument htext) hend
    hmore).append_of_blanks hgap).append_of_bracketPairs hpairs

end Closes

theorem exists_of_opensArguments (h : opensArguments (pieces false p cs) = true) :
    ∃ text ∈ argumentList, text <+: cs := by
  rw [argumentList_eq]
  unfold opensArguments at h
  split at h
  · rename_i ps hps
    obtain ⟨gap, rest, q, rfl, hgap, hrest⟩ := exists_of_pieces_sign hps
    obtain ⟨gap', rest', r, rfl, hgap', -⟩ := exists_of_pieces_sign hrest
    exact ⟨_, .inl (append_mem_mul (append_mem_mul hgap rfl) (append_mem_mul hgap' rfl)), rest',
      by simp⟩
  · rename_i q w ps hps
    obtain ⟨hw, h⟩ := Bool.and_eq_true_iff.mp h
    obtain ⟨gap, rest, q, rfl, hgap, hrest⟩ := exists_of_pieces_sign hps
    obtain ⟨gap', rest', r, rfl, hgap', hchars, hrest'⟩ := exists_of_pieces_word hrest
    rw [← hrest'] at h
    obtain ⟨text, htext, more, rfl⟩ := exists_of_closesArguments h
    exact ⟨_, .inr (append_mem_mul (append_mem_mul hgap rfl)
      (append_mem_mul (append_mem_mul hgap' ⟨hw, hchars⟩) htext)), more, by simp⟩
  · cases h

theorem opensArguments_append {text : List Char} (htext : text ∈ argumentList) :
    opensArguments (pieces false p (text ++ cs)) = true := by
  rw [argumentList_eq] at htext
  rcases htext with htext | htext
  · obtain ⟨-, ⟨gap, hgap, -, rfl, rfl⟩, -, ⟨gap', hgap', -, rfl, rfl⟩, rfl⟩ := htext
    have hcut : gap ++ ['<'] ++ (gap' ++ ['>']) ++ cs = gap ++ '<' :: (gap' ++ '>' :: cs) := by simp
    rw [hcut, pieces_blanks hgap, pieces_sign (by decide), pieces_blanks hgap',
      pieces_sign (by decide), opensArguments]
  · obtain ⟨-, ⟨gap, hgap, -, rfl, rfl⟩, -, ⟨-, ⟨gap', hgap', word, ⟨hcapital, hword⟩, rfl⟩,
      text, hclosing, rfl⟩, rfl⟩ := htext
    have hrest : Closes (text ++ cs) := .append_of_closing hclosing
    cases word with
    | nil => cases hcapital
    | cons d word =>
      obtain ⟨hd, hword⟩ := List.forall_mem_cons.mp hword
      have hcut : gap ++ ['<'] ++ (gap' ++ (d :: word) ++ text) ++ cs =
          gap ++ '<' :: (gap' ++ (d :: word ++ (text ++ cs))) := by simp
      rw [hcut, pieces_blanks hgap, pieces_sign (by decide), pieces_blanks hgap',
        pieces_word hd hword hrest.not_isWordChar, opensArguments, hcapital, Bool.true_and]
      exact hrest _

/-- **Type arguments.**  The pieces of a text start with type arguments if and only if the
text does. -/
theorem opensArguments_iff :
    opensArguments (pieces false p cs) = true ↔ ∃ text ∈ argumentList, text <+: cs := by
  constructor
  · exact exists_of_opensArguments
  · rintro ⟨text, htext, rest, rfl⟩
    exact opensArguments_append htext

/-! ## Places from the left -/

/-- Whether a word may go on behind the characters. -/
def endsInWord (front : List Char) : Bool :=
  front.getLast?.any isWordChar

variable {front : List Char}

theorem endsInWord_concat (front : List Char) (c : Char) :
    endsInWord (front ++ [c]) = isWordChar c := by
  simp [endsInWord]

theorem endsInWord_eq_false_iff :
    endsInWord front = false ↔ ∀ c ∈ front.getLast?, isWordChar c = false := by
  cases hlast : front.getLast? <;> simp [endsInWord, hlast]

/-- The word behind a front of the text. -/
theorem wordAt_length_iff :
    WordAt (front ++ cs) front.length word ↔
      endsInWord front = false ∧ word ≠ [] ∧ cs.takeWhile isWordChar = word := by
  rw [endsInWord_eq_false_iff]
  constructor
  · rintro ⟨front', rest, hcut, hlength, hne, hword, hbefore, hbehind⟩
    rw [List.append_assoc] at hcut
    obtain ⟨rfl, rfl⟩ := List.append_inj hcut hlength.symm
    exact ⟨hbefore, hne, Token.takeWhile_append_eq hword hbehind⟩
  · rintro ⟨hbefore, hne, rfl⟩
    obtain ⟨body, rest, rfl, hbody, hends⟩ := Token.exists_run isWordChar cs
    rw [Token.takeWhile_append_eq hbody hends] at hne ⊢
    exact ⟨front, rest, (List.append_assoc ..).symm, rfl, hne, hbody, hbefore, hends⟩

/-- Type arguments do not continue a word. -/
theorem not_isWordChar_of_opensArguments (h : opensArguments (pieces false p cs) = true) :
    ∀ d ∈ cs.head?, isWordChar d = false := by
  intro d hd
  obtain ⟨cs, rfl⟩ := List.head?_eq_some_iff.mp hd
  by_contra hword
  rw [Bool.not_eq_false] at hword
  simp [pieces, hword, opensArguments] at h

/-- The type with arguments behind a front of the text. -/
theorem genericAt_length_iff {body rest : List Char} (hbody : ∀ d ∈ body, isWordChar d = true)
    (hends : ∀ d ∈ rest.head?, isWordChar d = false) (p : Pos) :
    GenericAt (front ++ (body ++ rest)) front.length ↔ endsInWord front = false ∧
      (isCapitalized body && opensArguments (pieces false p rest)) = true := by
  rw [endsInWord_eq_false_iff, Bool.and_eq_true, opensArguments_iff]
  constructor
  · rintro ⟨front', text, more, hcut, hlength, htext, hbefore⟩
    rw [List.append_assoc] at hcut
    obtain ⟨rfl, htail⟩ := List.append_inj hcut hlength.symm
    rw [genericType_eq] at htext
    obtain ⟨word, ⟨hcapital, hword⟩, args, hargs, rfl⟩ := Language.mem_mul.mp htext
    have hbehind : ∀ d ∈ (args ++ more).head?, isWordChar d = false :=
      not_isWordChar_of_opensArguments (opensArguments_append (p := p) hargs)
    rw [List.append_assoc] at htail
    have heq : body = word := by
      rw [← Token.takeWhile_append_eq hbody hends, htail, Token.takeWhile_append_eq hword hbehind]
    subst heq
    exact ⟨hbefore, hcapital, args, hargs, more, (List.append_cancel_left htail).symm⟩
  · rintro ⟨hbefore, hcapital, args, hargs, more, rfl⟩
    refine ⟨front, body ++ args, more, by simp, rfl, ?_, hbefore⟩
    rw [genericType_eq]
    exact append_mem_mul ⟨hcapital, hbody⟩ hargs

/-- The position that is reported if a property of indices is looked for from index `n` on. -/
inductive Reports (cs : List Char) (P : Nat → Prop) (n : Nat) : Option Pos → Prop where
  | nowhere (h : ∀ i, n ≤ i → ¬ P i) : Reports cs P n none
  | least {i : Nat} (h : IsLeast {j | n ≤ j ∧ P j} i) :
      Reports cs P n (some (Pos.start.after (cs.take i)))

namespace Reports

variable {P Q : Nat → Prop} {n : Nat} {found : Option Pos}

/-- The place behind the first characters is the first one from there on. -/
theorem here {front rest : List Char} (h : P front.length) :
    Reports (front ++ rest) P front.length (some (Pos.start.after front)) := by
  have hleast : Reports (front ++ rest) P front.length
      (some (Pos.start.after ((front ++ rest).take front.length))) :=
    .least ⟨⟨le_rfl, h⟩, fun _ hj => hj.1⟩
  rwa [List.take_left] at hleast

/-- From `n` on, the property `Q` is what `P` is from `m` on. -/
theorem of_iff {m : Nat} (h : Reports cs P m found) (hm : n ≤ m)
    (hPQ : ∀ i, n ≤ i → (Q i ↔ m ≤ i ∧ P i)) : Reports cs Q n found := by
  cases h with
  | nowhere h =>
    refine .nowhere fun i hi hQ => ?_
    obtain ⟨hmi, hP⟩ := (hPQ i hi).mp hQ
    exact h i hmi hP
  | least h =>
    obtain ⟨⟨hmi, hP⟩, hleast⟩ := h
    exact .least ⟨⟨hm.trans hmi, (hPQ _ (hm.trans hmi)).mpr ⟨hmi, hP⟩⟩,
      fun j ⟨hj, hQ⟩ => hleast ((hPQ j hj).mp hQ)⟩

theorem step (h : Reports cs P (n + 1) found) (hn : ¬ P n) : Reports cs P n found := by
  refine h.of_iff (Nat.le_succ n) fun i hi => ⟨fun hP => ⟨?_, hP⟩, And.right⟩
  exact Nat.lt_of_le_of_ne hi fun heq => hn (heq ▸ hP)

end Reports

/-- One character more: a type with arguments stands here, or the search goes on. -/
theorem genericPlace?_step (front cs : List Char) (c : Char) :
    GenericAt (front ++ c :: cs) front.length ∧
        genericPlace? (pieces (endsInWord front) p (c :: cs)) = some p ∨
      ¬ GenericAt (front ++ c :: cs) front.length ∧
        genericPlace? (pieces (endsInWord front) p (c :: cs)) =
          genericPlace? (pieces (isWordChar c) (p.next c) cs) := by
  by_cases hc : isWordChar c = true
  · obtain ⟨body, rest, rfl, hbody, hends⟩ := Token.exists_run isWordChar cs
    have hiff : GenericAt (front ++ (c :: body ++ rest)) front.length ↔ _ :=
      genericAt_length_iff (List.forall_mem_cons.mpr ⟨hc, hbody⟩) hends ((p.next c).after body)
    rw [List.cons_append] at hiff
    cases hfront : endsInWord front with
    | true =>
      refine .inr ⟨by simp [hiff, hfront], ?_⟩
      rw [pieces, if_pos hc, if_pos rfl]
    | false =>
      rw [hfront] at hiff
      rw [← List.cons_append, pieces_word hc hbody hends, genericPlace?, hc, pieces_inWord hbody,
        pieces_ended hends, Pos.after_cons, List.cons_append, hiff]
      split
      · rename_i hhit
        exact .inl ⟨⟨rfl, hhit⟩, rfl⟩
      · rename_i hmiss
        exact .inr ⟨fun h => hmiss h.2, rfl⟩
  · have hiff := @genericAt_length_iff front [] (c :: cs) (List.forall_mem_nil _)
      (by simpa using hc) p
    refine .inr ⟨fun h => ?_, ?_⟩
    · cases (hiff.mp h).2
    · rw [pieces, if_neg hc]
      split <;> rfl

/-- One character more: the word stands here, or the search goes on. -/
theorem places_step {w : String} (hw : w.toList ≠ []) (front cs : List Char) (c : Char) :
    WordAt (front ++ c :: cs) front.length w.toList ∧
        places w (pieces (endsInWord front) p (c :: cs)) =
          p :: places w (pieces (isWordChar c) (p.next c) cs) ∨
      ¬ WordAt (front ++ c :: cs) front.length w.toList ∧
        places w (pieces (endsInWord front) p (c :: cs)) =
          places w (pieces (isWordChar c) (p.next c) cs) := by
  rw [wordAt_length_iff]
  by_cases hc : isWordChar c = true
  · rw [pieces, if_pos hc]
    cases endsInWord front with
    | true => exact .inr ⟨by simp, rfl⟩
    | false =>
      by_cases hhit : (c :: cs).takeWhile isWordChar = w.toList
      · exact .inl ⟨⟨rfl, hw, hhit⟩, by simp [places, hhit]⟩
      · exact .inr ⟨fun h => hhit h.2.2, by simp [places, hhit]⟩
  · refine .inr ⟨fun h => hw ?_, ?_⟩
    · rw [← h.2.2, List.takeWhile_cons_of_neg hc]
    · rw [pieces, if_neg hc]
      split <;> rfl

/-- Nothing stands behind the end of a text. -/
theorem WordAt.lt_length {i : Nat} (h : WordAt cs i word) : i < cs.length := by
  obtain ⟨front, rest, rfl, rfl, hne, -⟩ := h
  have hpos := List.length_pos_iff.mpr hne
  simp only [List.length_append]
  omega

theorem GenericAt.lt_length {i : Nat} (h : GenericAt cs i) : i < cs.length := by
  obtain ⟨front, text, rest, rfl, rfl, htext, -⟩ := h
  rw [genericType_eq] at htext
  obtain ⟨word, ⟨hcapital, -⟩, args, -, rfl⟩ := Language.mem_mul.mp htext
  cases word with
  | nil => cases hcapital
  | cons c word =>
    simp only [List.length_append, List.length_cons]
    omega

theorem genericPlace?_reports (front cs : List Char) :
    Reports (front ++ cs) (GenericAt (front ++ cs)) front.length
      (genericPlace? (pieces (endsInWord front) (Pos.start.after front) cs)) := by
  induction cs generalizing front with
  | nil =>
    refine .nowhere fun i hi h => ?_
    have hlt := h.lt_length
    rw [List.append_nil] at hlt
    omega
  | cons c cs ih =>
    have hlater := ih (front ++ [c])
    rw [List.append_assoc, List.length_append, endsInWord_concat, Pos.after_append] at hlater
    rcases genericPlace?_step front cs c with ⟨hhit, heq⟩ | ⟨hmiss, heq⟩
    · rw [heq]
      exact .here hhit
    · rw [heq]
      exact hlater.step hmiss

theorem places_reports {w : String} (hw : w.toList ≠ []) (front cs : List Char) :
    Reports (front ++ cs) (WordAt (front ++ cs) · w.toList) front.length
      (places w (pieces (endsInWord front) (Pos.start.after front) cs)).head? := by
  induction cs generalizing front with
  | nil =>
    refine .nowhere fun i hi h => ?_
    have hlt := h.lt_length
    rw [List.append_nil] at hlt
    omega
  | cons c cs ih =>
    have hlater := ih (front ++ [c])
    rw [List.append_assoc, List.length_append, endsInWord_concat, Pos.after_append] at hlater
    rcases places_step hw front cs c with ⟨hhit, heq⟩ | ⟨hmiss, heq⟩
    · rw [heq, List.head?_cons]
      exact .here hhit
    · rw [heq]
      exact hlater.step hmiss

/-- The second place of a word is the first one with the word somewhere before it. -/
theorem places_reports_again {w : String} (hw : w.toList ≠ []) (front cs : List Char) :
    Reports (front ++ cs) (fun i => WordAt (front ++ cs) i w.toList ∧
        ∃ j < i, front.length ≤ j ∧ WordAt (front ++ cs) j w.toList) front.length
      (places w (pieces (endsInWord front) (Pos.start.after front) cs))[1]? := by
  induction cs generalizing front with
  | nil =>
    refine .nowhere fun i hi h => ?_
    have hlt := h.1.lt_length
    rw [List.append_nil] at hlt
    omega
  | cons c cs ih =>
    rcases places_step hw front cs c with ⟨hhit, heq⟩ | ⟨hmiss, heq⟩
    · have hlater := places_reports hw (front ++ [c]) cs
      rw [List.append_assoc, List.length_append, endsInWord_concat, Pos.after_append] at hlater
      rw [heq, List.getElem?_cons_succ, ← List.head?_eq_getElem?]
      refine hlater.of_iff (Nat.le_succ _) fun i hi => ?_
      constructor
      · rintro ⟨h, j, hj, hfront, -⟩
        exact ⟨Nat.lt_of_le_of_lt hfront hj, h⟩
      · rintro ⟨hlt, h⟩
        exact ⟨h, front.length, hlt, le_rfl, hhit⟩
    · have hlater := ih (front ++ [c])
      rw [List.append_assoc, List.length_append, endsInWord_concat, Pos.after_append] at hlater
      rw [heq]
      refine hlater.of_iff (Nat.le_succ _) fun i hi => ?_
      constructor
      · rintro ⟨h, j, hj, hfront, hbefore⟩
        have hne : front.length ≠ j := by
          rintro rfl
          exact hmiss hbefore
        have hlt : front.length < j := Nat.lt_of_le_of_ne hfront hne
        exact ⟨hlt.trans hj, h, j, hj, hlt, hbefore⟩
      · rintro ⟨-, h, j, hj, hfront, hbefore⟩
        exact ⟨h, j, hj, Nat.le_of_succ_le hfront, hbefore⟩

/-! ## The rules and the table -/

/-- Every rule finds the leftmost place of the feature in its line of the table. -/
theorem rules_report : List.Forall₂ (fun rule line => rule.1.reason = line.1 ∧
    ∀ cs, Reports cs (line.2.At cs) 0 (rule.2 (pieces false .start cs))) rules refusals := by
  have hword : ∀ w : String, w.toList ≠ [] → ∀ cs,
      Reports cs (Feature.At (.word w) cs) 0 (places w (pieces false .start cs)).head? :=
    fun w hw cs => places_reports hw [] cs
  have hagain : ∀ w : String, w.toList ≠ [] → ∀ cs,
      Reports cs (Feature.At (.wordAgain w) cs) 0 (places w (pieces false .start cs))[1]? := by
    intro w hw cs
    refine (places_reports_again hw [] cs).of_iff le_rfl fun i hi => ?_
    simp [Feature.At]
  exact .cons ⟨rfl, hword _ (by decide)⟩ <| .cons ⟨rfl, hword _ (by decide)⟩ <|
    .cons ⟨rfl, hword _ (by decide)⟩ <| .cons ⟨rfl, hword _ (by decide)⟩ <|
    .cons ⟨rfl, hword _ (by decide)⟩ <| .cons ⟨rfl, hword _ (by decide)⟩ <|
    .cons ⟨rfl, hword _ (by decide)⟩ <| .cons ⟨rfl, genericPlace?_reports []⟩ <|
    .cons ⟨rfl, hagain _ (by decide)⟩ .nil

namespace RefusedAt

variable {lines : List (String × Feature)} {reason reason' : String} {i i' : Nat}

theorem exists_at (h : RefusedAt cs lines reason i) : ∃ line ∈ lines, line.2.At cs i := by
  induction h with
  | here h => exact ⟨_, List.mem_cons_self, h.1⟩
  | later _ _ ih =>
    obtain ⟨line, hline, hat⟩ := ih
    exact ⟨line, List.mem_cons_of_mem _ hline, hat⟩

theorem unique (h : RefusedAt cs lines reason i) (h' : RefusedAt cs lines reason' i') :
    reason = reason' ∧ i = i' := by
  induction h with
  | here h =>
    cases h' with
    | here h' => exact ⟨rfl, h.unique h'⟩
    | later hline _ => exact absurd h.1 (hline _)
  | later hline _ ih =>
    cases h' with
    | here h' => exact absurd h'.1 (hline _)
    | later _ h' => exact ih h'

end RefusedAt

/-- Rules that find the features of a table find the refusal that the table says. -/
theorem findSome?_refusedAt {rules : List (Construct × (List Piece → Option Pos))}
    {lines : List (String × Feature)}
    (h : List.Forall₂ (fun rule line => rule.1.reason = line.1 ∧
      ∀ cs, Reports cs (line.2.At cs) 0 (rule.2 (pieces false .start cs))) rules lines)
    (cs : List Char) :
    (rules.findSome? fun rule => (rule.2 (pieces false .start cs)).map (rule.1, ·)) = none ∧
        (∀ line ∈ lines, ∀ i, ¬ line.2.At cs i) ∨
      ∃ construct i,
        (rules.findSome? fun rule => (rule.2 (pieces false .start cs)).map (rule.1, ·)) =
          some (construct, Pos.start.after (cs.take i)) ∧
        RefusedAt cs lines construct.reason i := by
  induction h with
  | nil => exact .inl ⟨rfl, List.forall_mem_nil _⟩
  | @cons rule line rules lines hrule _ ih =>
    obtain ⟨reason, feature⟩ := line
    obtain ⟨rfl, hreports⟩ := hrule
    have hfound := hreports cs
    rw [List.findSome?_cons]
    generalize rule.2 (pieces false .start cs) = found at hfound
    cases hfound with
    | nowhere hnone =>
      have hmiss : ∀ j, ¬ feature.At cs j := fun j => hnone j (Nat.zero_le j)
      rcases ih with ⟨heq, hlines⟩ | ⟨construct, i, heq, hrefused⟩
      · exact .inl ⟨heq, List.forall_mem_cons.mpr ⟨hmiss, hlines⟩⟩
      · exact .inr ⟨construct, i, heq, .later hmiss hrefused⟩
    | @least i hleast =>
      refine .inr ⟨rule.1, i, rfl, .here ?_⟩
      simpa using hleast

/-- Masking moves nothing. -/
theorem after_take_maskLiterals (text : String) (i : Nat) :
    Pos.start.after ((Source.maskLiterals text).toList.take i) = Pos.ofIndex text.toList i := by
  have hblanked : Source.Blanked (text.toList.take i)
      ((Source.maskLiterals text).toList.take i) := by
    rw [Source.maskLiterals, String.toList_ofList]
    exact List.forall₂_take i (Source.blanked_maskChars none text.toList)
  rw [← hblanked.after_eq, Pos.after_take_eq]

/-- **The meaning of the scope.**  A text is in scope if and only if nothing in the table
shows in its masked form.  Otherwise it is refused with the reason of the first line of the
table that applies, at the line and the column in the text of the leftmost place where it
does. -/
theorem violation?_iff_refused (text : String) :
    (violation? text = none ↔
      ∀ line ∈ refusals, ∀ i, ¬ line.2.At (Source.maskLiterals text).toList i) ∧
    ∀ reason p, (violation? text).map (fun found => (found.1.reason, found.2)) = some (reason, p) ↔
      ∃ i, RefusedAt (Source.maskLiterals text).toList refusals reason i ∧
        p = Pos.ofIndex text.toList i := by
  rcases findSome?_refusedAt rules_report (Source.maskLiterals text).toList with
    ⟨hnone, hlines⟩ | ⟨construct, i, hsome, hrefused⟩
  · have hviolation : violation? text = none := hnone
    refine ⟨iff_of_true hviolation hlines, fun reason p => ?_⟩
    rw [hviolation]
    refine iff_of_false (by simp) ?_
    rintro ⟨i, hrefused, -⟩
    obtain ⟨line, hline, hat⟩ := hrefused.exists_at
    exact hlines line hline i hat
  · have hviolation : violation? text =
        some (construct, Pos.start.after ((Source.maskLiterals text).toList.take i)) := hsome
    rw [hviolation, after_take_maskLiterals]
    constructor
    · refine iff_of_false (by simp) fun hlines => ?_
      obtain ⟨line, hline, hat⟩ := hrefused.exists_at
      exact hlines line hline i hat
    · intro reason p
      constructor
      · intro heq
        obtain ⟨rfl, rfl⟩ := Prod.mk.inj (Option.some.inj heq)
        exact ⟨i, hrefused, rfl⟩
      · rintro ⟨i', hrefused', rfl⟩
        obtain ⟨rfl, rfl⟩ := hrefused.unique hrefused'
        rfl

end Scope

end Pseudocode
