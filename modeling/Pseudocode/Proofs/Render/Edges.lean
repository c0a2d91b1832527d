import Pseudocode.Proofs.Loop.Arithmetic
import Pseudocode.Proofs.Render.Lines
set_option autoImplicit false

/-!
# The edges of a text

The text of an expression neither starts nor ends with white space.
-/

namespace Pseudocode

namespace Text

/-- The first character is not blank. -/
def Opens (t : String) : Prop :=
  ∃ c ∈ t.toList.head?, isBlank c = false

/-- The last character is not blank. -/
def Closes (t : String) : Prop :=
  ∃ c ∈ t.toList.getLast?, isBlank c = false

theorem Opens.append {t : String} (h : Opens t) (u : String) : Opens (t ++ u) := by
  obtain ⟨c, hc, hblank⟩ := h
  exact ⟨c, by simp [List.head?_append, Option.mem_def.mp hc], hblank⟩

theorem Closes.append {u : String} (h : Closes u) (t : String) : Closes (t ++ u) := by
  obtain ⟨c, hc, hblank⟩ := h
  exact ⟨c, by simp [List.getLast?_append, Option.mem_def.mp hc], hblank⟩

/-- Neither edge of the text is blank. -/
structure Framed (t : String) : Prop where
  opens : Opens t
  closes : Closes t

instance (t : String) : Decidable (Framed t) :=
  decidable_of_decidable_of_iff
    (p := t.toList.head?.any (!isBlank ·) = true ∧ t.toList.getLast?.any (!isBlank ·) = true) (by
    simp only [Option.any_eq_true, Bool.not_eq_true']
    exact ⟨fun h => ⟨h.1, h.2⟩, fun h => ⟨h.opens, h.closes⟩⟩)

namespace Framed

variable {t u : String}

theorem append (ht : Framed t) (hu : Framed u) : Framed (t ++ u) :=
  ⟨ht.opens.append u, hu.closes.append t⟩

theorem bracketed (t : String) : Framed (bracketed t) :=
  ⟨((show Framed "(" by decide).opens.append t).append ")",
    (show Framed ")" by decide).closes.append _⟩

theorem subscript (t : String) : Framed (subscript t) :=
  ⟨((show Framed "[" by decide).opens.append t).append "]",
    (show Framed "]" by decide).closes.append _⟩

/-- A text of visible characters. -/
theorem of_forall (hne : t ≠ "") (h : ∀ c ∈ t.toList, isBlank c = false) : Framed t := by
  have hne' : t.toList ≠ [] := by simpa using hne
  exact ⟨⟨t.toList.head hne', List.head?_eq_some_head hne', h _ (List.head_mem hne')⟩,
    t.toList.getLast hne', List.getLast?_eq_some_getLast hne', h _ (List.getLast_mem hne')⟩

end Framed

/-! ## Trimming -/

/-- Trimming takes nothing from the middle of a text. -/
theorem toList_trim_append {front back : String} (hfront : ∃ c ∈ front.toList, isBlank c = false)
    (hback : ∃ c ∈ back.toList, isBlank c = false) :
    (trim (front ++ back)).toList =
      dropBlanks front.toList ++ (dropBlanks back.toList.reverse).reverse := by
  have hdrop : ∀ {cs ds : List Char}, (∃ c ∈ cs, isBlank c = false) →
      dropBlanks (cs ++ ds) = dropBlanks cs ++ ds := by
    rintro cs ds ⟨c, hc, hblank⟩
    unfold dropBlanks
    induction cs with
    | nil => cases hc
    | cons d cs ih =>
      cases hd : isBlank d with
      | false => simp [hd]
      | true =>
        rcases List.mem_cons.mp hc with rfl | hc
        · cases hd.symm.trans hblank
        · simpa [hd] using ih hc
  rw [trim, String.toList_ofList, String.toList_append, hdrop hfront, List.reverse_append,
    hdrop (by simpa using hback), List.reverse_append, List.reverse_reverse]

theorem Opens.dropBlanks {t : String} (h : Opens t) : dropBlanks t.toList = t.toList := by
  obtain ⟨c, hc, hblank⟩ := h
  obtain ⟨cs, hcs⟩ := List.head?_eq_some_iff.mp hc
  rw [hcs, Text.dropBlanks, List.dropWhile_cons, hblank]
  rfl

theorem Closes.dropBlanks {t : String} (h : Closes t) :
    (dropBlanks t.toList.reverse).reverse = t.toList := by
  obtain ⟨c, hc, hblank⟩ := h
  obtain ⟨cs, hcs⟩ := List.getLast?_eq_some_iff.mp hc
  rw [hcs, List.reverse_append, Text.dropBlanks]
  simp [hblank]

end Text

open Text (Framed)

namespace Binary64

theorem write_ne_empty (form : DecimalForm) (s : Scientific) : form.write s ≠ "" := by
  unfold DecimalForm.write
  split
  · unfold pointed
    split <;> simp [← String.toList_inj]
  · simp [exponential, ← String.toList_inj]

theorem text_ne_empty (x : Binary64) : x.text ≠ "" := by
  cases x with
  | finite negative m e =>
    have hdigits : (if m = 0 then "0.0" else plainForm.write (shortest m e)) ≠ "" := by
      split
      · decide
      · exact write_ne_empty _ _
    intro h
    exact hdigits (String.append_eq_empty_iff.mp h).2
  | infinite negative => cases negative <;> decide
  | nan => decide

theorem plainText_ne_empty (x : Binary64) : x.plainText ≠ "" := by
  have hrepr : ∀ n : Nat, Nat.repr n ≠ "" := by
    intro n h
    have hdigits := congrArg String.toList h
    rw [Nat.repr, String.toList_ofList] at hdigits
    exact Nat.toDigits_ne_nil hdigits
  unfold plainText
  split
  · rename_i i _
    cases i with
    | ofNat n => exact hrepr n
    | negSucc n => exact fun h => hrepr (n + 1) (String.append_eq_empty_iff.mp h).2
  · exact text_ne_empty x

/-- The text of a number has no blanks. -/
theorem isBlank_plainText (x : Binary64) : ∀ c ∈ x.plainText.toList, Text.isBlank c = false := by
  intro c hc
  have hnumeric := List.all_eq_true.mp (all_plainText x) c hc
  have hmarks : ['+', '-', '.', 'a', 'e', 'f', 'i', 'n'].all (fun c => !Text.isBlank c) = true := by
    decide
  rcases Bool.or_eq_true_iff.mp hnumeric with hdigit | hmark
  · exact Token.isBlank_of_isWordPart (by simp [Token.isWordPart, hdigit])
  · simpa using List.all_eq_true.mp hmarks c (by simpa using hmark)

theorem framed_plainText (x : Binary64) : Framed x.plainText :=
  .of_forall (plainText_ne_empty x) (isBlank_plainText x)

end Binary64

namespace Token

/-- A literal ends with the quote that it starts with. -/
theorem getLast?_of_literalLength? {q : Char} {cs : List Char} {n : Nat}
    (h : literalLength? q cs = some n) : (cs.take n).getLast? = some q := by
  fun_induction literalLength? q cs generalizing n with
  | case1 => cases h
  | case2 => cases h
  | case3 c cs hc ih | case6 c cs hescape hc hquote ih =>
    obtain ⟨m, hm, rfl⟩ := Option.map_eq_some_iff.mp h
    simp [List.getLast?_cons, ih hm]
  | case4 => cases h
  | case5 cs hescape hc =>
    obtain rfl := Option.some.inj h
    simp

theorem framed_of_isLexeme {kind : Kind} {text : String} (h : isLexeme kind text = true) :
    Framed text := by
  by_cases hkind : kind = .string
  · subst hkind
    obtain ⟨c, cs, rfl, hlexeme⟩ := isLexeme_iff.mp h
    obtain ⟨hquote, hlength⟩ := literalLength?_of_lexeme hlexeme
    have hlast := getLast?_of_literalLength? hlength
    rw [List.take_length] at hlast
    have hblank : Text.isBlank c = false := by
      rcases eq_of_isQuote hquote with rfl | rfl <;> decide
    exact ⟨⟨c, by simp, hblank⟩, ⟨c, by simp [List.getLast?_cons, hlast], hblank⟩⟩
  · have hmarks : marks.all (fun c => !Text.isBlank c) = true := by decide
    refine .of_forall ?_ fun c hc => ?_
    · rintro rfl
      cases h
    · rcases mem_of_isLexeme h hkind hc with hword | hmark
      · exact isBlank_of_isWordPart hword
      · simpa using List.all_eq_true.mp hmarks c hmark

end Token

theorem Vocabulary.framed_of_lexical {kind : Kind} {text : String} (h : lexical kind text)
    (hkind : kind ≠ .eof) : Framed text :=
  Token.framed_of_isLexeme (isLexeme_of_lexical h hkind)

namespace Style

variable {style : Style}

theorem framed_of_mem_words (h : style ∈ catalogue) : ∀ word ∈ style.words, Framed word := by
  have hall : ∀ style ∈ catalogue, ∀ word ∈ style.words, Framed word := by decide +kernel
  exact hall style h

/-- Words make up texts without blanks at the edges. -/
theorem Composed.framed (hs : style ∈ catalogue) {t : String} (h : style.Composed t) :
    Framed t := by
  have hshared : ∀ t ∈ sharedWords, Framed t := by decide
  induction h with
  | own h => exact framed_of_mem_words hs _ h
  | shared h => exact hshared _ h
  | lexeme _ h => exact Token.framed_of_isLexeme h
  | append _ _ iht ihu => exact iht.append ihu
  | between _ _ _ iht ihu => exact ⟨(iht.opens.append _).append _, ihu.closes.append _⟩
  | bracketed | noArguments => exact .bracketed _
  | subscript | noElements => exact .subscript _

end Style

namespace Setting

variable {s : Setting}

/-- The text of an expression has no blank at its edges. -/
theorem render_framed (hs : s.style ∈ Style.catalogue) {e : Expr} (he : e.WellFormed .lexical)
    (slot : Slot) : Ensures Framed (s.render slot e) :=
  (render_composed he slot).mono fun _ h => h.framed hs

end Setting

end Pseudocode
