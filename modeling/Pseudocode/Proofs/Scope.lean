import Pseudocode.Scope
set_option autoImplicit false

/-!
# Where constructs outside the subset show

A violation of the scope is found at a word of the text.  `Construct.Shows` says what that
word is, and that it is the first one of its kind, or the second one where two are needed.
The words are where they say in the masked text.
-/

namespace Pseudocode

namespace Scope

open Text (isBlank isWordChar)

/-- Every word stands in the text where it says. -/
theorem exists_of_mem_pieces {inWord : Bool} {p q : Pos} {cs word : List Char}
    (h : .word q word ∈ pieces inWord p cs) :
    ∃ front rest, cs = front ++ word ++ rest ∧ q = p.after front ∧ word ≠ [] ∧
      ∀ c ∈ word, isWordChar c = true := by
  induction cs generalizing inWord p with
  | nil => cases h
  | cons c cs ih =>
    have hlater : .word q word ∈ pieces (isWordChar c) (p.next c) cs → ∃ front rest,
        c :: cs = front ++ word ++ rest ∧ q = p.after front ∧ word ≠ [] ∧
          ∀ c ∈ word, isWordChar c = true := by
      intro h
      obtain ⟨front, rest, rfl, hq, hword⟩ := ih h
      exact ⟨c :: front, rest, rfl, hq, hword⟩
    rw [pieces] at h
    split at h
    · rename_i hc
      split at h
      · exact hlater h
      · rcases List.mem_cons.mp h with heq | h
        · obtain ⟨rfl, rfl⟩ := Piece.word.inj heq
          refine ⟨[], (c :: cs).dropWhile isWordChar, ?_, rfl, ?_, ?_⟩
          · rw [List.nil_append, List.takeWhile_append_dropWhile]
          · rw [List.takeWhile_cons_of_pos hc]
            exact List.cons_ne_nil _ _
          · exact List.all_eq_true.mp List.all_takeWhile
        · exact hlater h
    · split at h
      · exact hlater h
      · rcases List.mem_cons.mp h with heq | h
        · cases heq
        · exact hlater h

/-- The place of a word among the pieces, and how often the word stands before it. -/
theorem exists_of_places {word : String} {ps : List Piece} {n : Nat} {p : Pos}
    (h : (places word ps)[n]? = some p) :
    ∃ before after, ps = before ++ .word p word.toList :: after ∧
      (places word before).length = n := by
  induction ps generalizing n with
  | nil => simp [places] at h
  | cons piece ps ih =>
    by_cases hhit : ∃ q, piece = .word q word.toList
    · obtain ⟨q, rfl⟩ := hhit
      have hplaces : ∀ ps, places word (.word q word.toList :: ps) = q :: places word ps := by
        intro ps
        simp [places]
      rw [hplaces] at h
      cases n with
      | zero =>
        rw [List.getElem?_cons_zero] at h
        obtain rfl := Option.some.inj h
        exact ⟨[], ps, rfl, rfl⟩
      | succ n =>
        rw [List.getElem?_cons_succ] at h
        obtain ⟨before, after, rfl, hlen⟩ := ih h
        exact ⟨.word q word.toList :: before, after, rfl, by rw [hplaces, List.length_cons, hlen]⟩
    · have hplaces : ∀ ps, places word (piece :: ps) = places word ps := by
        intro ps
        cases piece with
        | sign c => rfl
        | word q chars =>
          have hchars : chars ≠ word.toList := by
            rintro rfl
            exact hhit ⟨q, rfl⟩
          simp [places, hchars]
      rw [hplaces] at h
      obtain ⟨before, after, rfl, hlen⟩ := ih h
      exact ⟨piece :: before, after, rfl, by rw [hplaces, hlen]⟩

/-- The word with which type arguments start, and that none start before it. -/
theorem exists_of_genericPlace? {ps : List Piece} {p : Pos} (h : genericPlace? ps = some p) :
    ∃ before word after, ps = before ++ .word p word :: after ∧
      (isCapitalized word && opensArguments after) = true ∧
      ∀ front q other between, before = front ++ .word q other :: between →
        (isCapitalized other && opensArguments (between ++ .word p word :: after)) = false := by
  induction ps with
  | nil => cases h
  | cons piece ps ih =>
    cases piece with
    | sign c =>
      obtain ⟨before, word, after, rfl, hword, hnone⟩ := ih h
      refine ⟨.sign c :: before, word, after, rfl, hword, ?_⟩
      intro front q other between hbefore
      cases front with
      | nil => cases hbefore
      | cons piece front => exact hnone front q other between (List.cons.inj hbefore).2
    | word q chars =>
      rw [genericPlace?] at h
      split at h
      · rename_i hhit
        obtain rfl := Option.some.inj h
        refine ⟨[], chars, ps, rfl, hhit, ?_⟩
        intro front q other between hbefore
        cases front <;> cases hbefore
      · rename_i hmiss
        obtain ⟨before, word, after, rfl, hword, hnone⟩ := ih h
        refine ⟨.word q chars :: before, word, after, rfl, hword, ?_⟩
        intro front q' other between hbefore
        cases front with
        | nil =>
          obtain ⟨heq, rfl⟩ := List.cons.inj hbefore
          obtain ⟨-, rfl⟩ := Piece.word.inj heq
          exact Bool.eq_false_iff.mpr hmiss
        | cons piece front => exact hnone front q' other between (List.cons.inj hbefore).2

end Scope

open Scope

/-- The words by which a construct shows. -/
def Construct.words : Construct → List String
  | .interfaces => ["interface", "implements"]
  | .inheritance => ["extends"]
  | .exceptions => ["throws", "try", "catch"]
  | .switching => ["switch"]
  | .generics => []
  | .classes => ["class"]

/-- How many words of its kind stand before the one by which a construct shows. -/
def Construct.earlier : Construct → Nat
  | .classes => 1
  | _ => 0

/-- Between the pieces `before` and `after`, the construct shows by `word`: type arguments
follow a capitalized word for the first time, or it is the first one of the words of the
construct (the second one, for classes). -/
def Construct.Shows (construct : Construct) (before : List Piece) (pos : Pos) (word : List Char)
    (after : List Piece) : Prop :=
  if construct = .generics then
    (isCapitalized word && opensArguments after) = true ∧
      ∀ front q other between, before = front ++ .word q other :: between →
        (isCapitalized other && opensArguments (between ++ .word pos word :: after)) = false
  else
    ∃ w ∈ construct.words, word = w.toList ∧ (places w before).length = construct.earlier

namespace Scope

/-- What a rule looks for. -/
theorem rule_cases {construct : Construct} {find : List Piece → Option Pos}
    (h : (construct, find) ∈ rules) :
    construct = .generics ∧ find = genericPlace? ∨
      construct ≠ .generics ∧ ∃ w ∈ construct.words,
        ∀ ps, find ps = (places w ps)[construct.earlier]? := by
  simp only [rules, List.mem_cons, Prod.mk.injEq, List.not_mem_nil, or_false] at h
  rcases h with ⟨rfl, rfl⟩ | ⟨rfl, rfl⟩ | ⟨rfl, rfl⟩ | ⟨rfl, rfl⟩ | ⟨rfl, rfl⟩ | ⟨rfl, rfl⟩ |
    ⟨rfl, rfl⟩ | ⟨rfl, rfl⟩ | ⟨rfl, rfl⟩ <;>
    simp [Construct.words, Construct.earlier, List.head?_eq_getElem?]

/-- A violation is found at a word of the text by which its construct shows. -/
theorem exists_of_violation? {text : String} {construct : Construct} {p : Pos}
    (h : violation? text = some (construct, p)) :
    ∃ before word after, codePieces text = before ++ .word p word :: after ∧
      construct.Shows before p word after := by
  obtain ⟨⟨rule, find⟩, hrule, hfound⟩ := List.exists_of_findSome?_eq_some h
  obtain ⟨q, hq, heq⟩ := Option.map_eq_some_iff.mp hfound
  obtain ⟨rfl, rfl⟩ := Prod.mk.inj heq
  dsimp only at hq ⊢
  rcases rule_cases hrule with ⟨hgenerics, hfind⟩ | ⟨hgenerics, w, hw, hfind⟩
  · rw [hfind] at hq
    obtain ⟨before, word, after, hps, hshows⟩ := exists_of_genericPlace? hq
    refine ⟨before, word, after, hps, ?_⟩
    rw [Construct.Shows, if_pos hgenerics]
    exact hshows
  · rw [hfind] at hq
    obtain ⟨before, after, hps, hlen⟩ := exists_of_places hq
    refine ⟨before, w.toList, after, hps, ?_⟩
    rw [Construct.Shows, if_neg hgenerics]
    exact ⟨w, hw, rfl, hlen⟩

end Scope

end Pseudocode
