import Mathlib.Data.List.Chain
import Pseudocode.Proofs.Conversion
import Pseudocode.Proofs.Reader.Types
set_option autoImplicit false

/-!
# The names of a program are in scope

The scope of a text is judged by its words, and a word behind a number is none of them.  The
grammar closes this gap: no word of an expression or of a statement stands behind a number,
so that every name of a program is a word of its text.
-/

namespace Pseudocode

namespace Token

/-! ## Words behind numbers -/

/-- A token that is neither a word nor a number. -/
def IsSign (t : Token) : Prop :=
  t.kind ≠ .number ∧ ¬ t.IsWord

theorem isSign_of_fits {p : Pattern} {t : Token} (h : p.fits t = true)
    (hp : p.kind ≠ .number ∧ p.kind ≠ .identifier ∧ p.kind ≠ .keyword) : t.IsSign := by
  have hkind := Reading.kind_of_fits h
  rw [← hkind] at hp
  exact ⟨hp.1, not_or.mpr hp.2⟩

theorem isSign_of_operator {t : Token} (h : t.kind = .operator) : t.IsSign := by
  simp [IsSign, IsWord, h]

/-- No word stands directly behind a number. -/
def WordsApart (ts : List Token) : Prop :=
  ts.IsChain fun t u => t.kind = .number → ¬ u.IsWord

namespace WordsApart

variable {t : Token} {ts us : List Token}

theorem singleton (t : Token) : WordsApart [t] :=
  List.IsChain.singleton t

theorem cons (ht : t.kind ≠ .number) (h : WordsApart ts) : WordsApart (t :: ts) :=
  List.IsChain.cons h fun _ _ hnumber => absurd hnumber ht

theorem append (hts : WordsApart ts) (hus : WordsApart us) (h : ∀ u ∈ us.head?, ¬ u.IsWord) :
    WordsApart (ts ++ us) :=
  List.IsChain.append hts hus fun _ _ u hu _ => h u hu

/-- A sign between. -/
theorem join (hts : WordsApart ts) (ht : t.IsSign) (hus : WordsApart us) :
    WordsApart (ts ++ t :: us) := by
  refine hts.append (hus.cons ht.1) ?_
  intro u hu
  cases hu
  exact ht.2

/-- A sign at the end. -/
theorem concat (hts : WordsApart ts) (ht : t.IsSign) : WordsApart (ts ++ [t]) :=
  hts.join ht .nil

end WordsApart

end Token

open Token (WordsApart)

theorem Derives.not_isWord_of_brackets {ds : List (Option Expr)} {w : List Token}
    (h : Derives (.brackets ds) w) : ∀ t ∈ w.head?, ¬ t.IsWord := by
  intro t ht
  obtain ⟨-, rfl⟩ | ⟨u, us, rfl, hu⟩ := h.first
  · cases ht
  · cases ht
    exact (Token.isSign_of_fits hu (by decide)).2

theorem Derives.not_isWord_of_initializer {e : Expr} {w : List Token}
    (h : Derives (.initializer e) w) : ∀ t ∈ w.head?, ¬ t.IsWord := by
  intro t ht
  obtain ⟨hempty, -⟩ | ⟨u, us, rfl, hu⟩ := h.first
  · exact hempty.elim
  · cases ht
    exact (Token.isSign_of_fits hu (by decide)).2

theorem Token.ne_number_of_fits {p : Pattern} {t : Token} (h : p.fits t = true)
    (hp : p.kind ≠ .number) : t.kind ≠ .number :=
  Reading.kind_of_fits h ▸ hp

open Token (isSign_of_fits isSign_of_operator ne_number_of_fits)

/-- In an expression no word stands behind a number. -/
theorem Derives.wordsApart {φ : Phrase} {w : List Token} (h : Derives φ w) : WordsApart w := by
  induction h with
  | name => exact .singleton _
  | paren ha _ hb ih =>
    exact (ih.cons (isSign_of_fits ha (by decide)).1).concat (isSign_of_fits hb (by decide))
  | call _ ha _ hb ihf ihes =>
    exact (ihf.join (isSign_of_fits ha (by decide)) ihes).concat (isSign_of_fits hb (by decide))
  | methodCall _ hd ht ha _ hb ihe ihes =>
    have hcall := ihes.cons (isSign_of_fits ha (by decide)).1
    exact (ihe.join (isSign_of_fits hd (by decide)) (hcall.cons (by simp [ht]))).concat
      (isSign_of_fits hb (by decide))
  | length _ hd _ _ ih | property _ hd _ _ ih =>
    exact ih.join (isSign_of_fits hd (by decide)) (.singleton _)
  | index _ hes _ ihe ihes => exact ihe.append ihes hes.not_isWord_of_brackets
  | operand _ ih | climb _ ih | plain _ ih | expressionItem _ ih | elementsItem _ ih
  | lastItem _ ih => exact ih
  | update _ ht ih => exact ih.concat (isSign_of_operator (Token.updateOp?_eq_some ht).1)
  | literal => exact .singleton _
  | newObject hk ht ha _ hb ih =>
    have hcall := (ih.cons (isSign_of_fits ha (by decide)).1).concat (isSign_of_fits hb (by decide))
    exact (hcall.cons (by simp [ht])).cons (ne_number_of_fits hk (by decide))
  | newArray hk ht _ _ ih =>
    exact (ih.cons (by rcases ht with ht | ht <;> simp [ht])).cons
      (ne_number_of_fits hk (by decide))
  | newElements hk ht _ _ he ihds ihe =>
    have helements := ihds.append ihe he.not_isWord_of_initializer
    exact (helements.cons (by rcases ht with ht | ht <;> simp [ht])).cons
      (ne_number_of_fits hk (by decide))
  | unary ht _ ih => exact ih.cons (isSign_of_operator (Token.unaryOp?_eq_some ht).1).1
  | binary _ ht _ ihl ihr =>
    exact ihl.join (isSign_of_operator (Reading.levelOp?_eq_some ht).1) ihr
  | assign _ _ ht _ ihl ihv =>
    exact ihl.join (isSign_of_operator (Token.assignOp?_eq_some ht).1) ihv
  | braces ha _ hb ih =>
    exact (ih.cons (isSign_of_fits ha (by decide)).1).concat (isSign_of_fits hb (by decide))
  | noItem | noBrackets => exact .nil
  | moreItems _ hc _ ihe ihes => exact ihe.join (isSign_of_fits hc (by decide)) ihes
  | filled ha _ hb _ ihe ihds =>
    exact (ihe.join (isSign_of_fits hb (by decide)) ihds).cons (isSign_of_fits ha (by decide)).1
  | empty ha hb _ ih =>
    exact (ih.cons (isSign_of_fits hb (by decide)).1).cons (isSign_of_fits ha (by decide)).1

/-! ## Statements -/

/-- The last token is not a number, so that a word may follow. -/
def Token.EndsApart (ts : List Token) : Prop :=
  ∀ t ∈ ts.getLast?, t.kind ≠ .number

theorem Token.EndsApart.append {ts us : List Token} (hts : EndsApart ts) (hus : EndsApart us) :
    EndsApart (ts ++ us) := by
  intro t ht
  rw [List.getLast?_append] at ht
  rcases Option.or_eq_some_iff.mp ht with ht | ⟨-, ht⟩
  · exact hus t ht
  · exact hts t ht

theorem Token.EndsApart.concat {ts : List Token} {t : Token} (ht : t.kind ≠ .number) :
    EndsApart (ts ++ [t]) := by
  intro u hu
  rw [List.getLast?_concat] at hu
  cases hu
  exact ht

theorem Token.endsApart_of_forall {ts : List Token} (h : ∀ t ∈ ts, t.kind ≠ .number) :
    EndsApart ts :=
  fun t ht => h t (List.mem_of_getLast? ht)

theorem Token.WordsApart.endsApart {ts us : List Token} {t : Token}
    (h : WordsApart (ts ++ t :: us)) (ht : t.IsWord) : EndsApart ts := by
  intro u hu hnumber
  exact (List.isChain_append.mp h).2.2 u hu t rfl hnumber ht

/-- No word stands behind a number, not even a word behind all of the tokens. -/
structure Token.Settled (ts : List Token) : Prop where
  apart : WordsApart ts
  last : EndsApart ts

namespace Token.Settled

variable {t : Token} {ts us : List Token}

theorem nil : Settled [] :=
  ⟨.nil, fun _ ht => nomatch ht⟩

theorem append (hts : Settled ts) (hus : Settled us) : Settled (ts ++ us) :=
  ⟨List.IsChain.append hts.apart hus.apart fun t ht _ _ hnumber => absurd hnumber (hts.last t ht),
    hts.last.append hus.last⟩

theorem cons (ht : t.kind ≠ .number) (h : Settled ts) : Settled (t :: ts) :=
  append ⟨.singleton t, endsApart_of_forall (by simpa using ht)⟩ h

theorem concat (hts : WordsApart ts) (ht : t.IsSign) : Settled (ts ++ [t]) :=
  ⟨hts.concat ht, .concat ht.1⟩

end Token.Settled

open Token (Settled)

theorem Derives.settled_of_brackets {ds : List (Option Expr)} {w : List Token}
    (h : Derives (.brackets ds) w) : Settled w :=
  ⟨h.wordsApart, fun t ht => (isSign_of_fits (h.last_of_brackets t ht) (by decide)).1⟩

section Statements

variable {w : List Token}

theorem DerivesValue.wordsApart {value : Option Expr} (h : DerivesValue value w) :
    WordsApart w ∧ ∀ t ∈ w.head?, ¬ t.IsWord := by
  cases h with
  | none => exact ⟨.nil, by simp⟩
  | elements ht he | plain ht he =>
    have hsign := isSign_of_fits ht (by simp [Pattern.operator])
    refine ⟨he.wordsApart.cons hsign.1, ?_⟩
    rintro u ⟨⟩
    exact hsign.2

theorem DerivesDeclaration.settled {t : Token} {d : Declaration} (h : DerivesDeclaration t d w) :
    Settled w := by
  cases h with
  | intro hu hn hv hw hs =>
    refine .concat (WordsApart.append ?_ hw.wordsApart.1 hw.wordsApart.2)
      (isSign_of_fits hs (by decide))
    exact (hu.settled_of_brackets.append (hv.settled_of_brackets.cons (by simp [hn]))).apart

theorem DerivesAssignment.settled {a : Assignment} (h : DerivesAssignment a w) : Settled w := by
  cases h with
  | intro hgoal _ ht hvalue hs =>
    have hsign := isSign_of_operator (Token.assignOp?_eq_some ht).1
    exact .concat (hgoal.wordsApart.join hsign hvalue.wordsApart) (isSign_of_fits hs (by decide))

theorem DerivesUpdate.wordsApart {u : Update} (h : DerivesUpdate u w) : WordsApart w := by
  cases h with
  | behind hgoal _ ht =>
    exact hgoal.wordsApart.concat (isSign_of_operator (Token.updateOp?_eq_some ht).1)
  | front ht hgoal _ =>
    exact hgoal.wordsApart.cons (isSign_of_operator (Token.updateOp?_eq_some ht).1).1

theorem DerivesCondition.settled {e : Expr} (h : DerivesCondition e w) : Settled w := by
  cases h with
  | intro ha he hb =>
    exact .concat (he.wordsApart.cons (isSign_of_fits ha (by decide)).1)
      (isSign_of_fits hb (by decide))

theorem DerivesInit.settled {init : Option ForInit} (h : DerivesInit init w) : Settled w := by
  cases h with
  | none hs => exact Settled.nil.cons (isSign_of_fits hs (by decide)).1
  | declaration ht hd => exact hd.settled.cons (by simp [Reading.kind_of_isType ht])
  | assignment ha => exact ha.settled

theorem DerivesTest.settled {test : Option Expr} (h : DerivesTest test w) : Settled w := by
  cases h with
  | none hs => exact Settled.nil.cons (isSign_of_fits hs (by decide)).1
  | some he hs => exact .concat he.wordsApart (isSign_of_fits hs (by decide))

theorem DerivesStep.settled {step : Option ForUpdate} (h : DerivesStep step w) : Settled w := by
  cases h with
  | none hb => exact Settled.nil.cons (isSign_of_fits hb (by decide)).1
  | update hu hb => exact .concat hu.wordsApart (isSign_of_fits hb (by decide))
  | expression he hb => exact .concat he.wordsApart (isSign_of_fits hb (by decide))

/-- The word `final` is not among the tokens. -/
def Token.NoneFinal (ts : List Token) : Prop :=
  ∀ t ∈ ts, t.kind = .identifier → t.text ≠ "final"

/-- In a statement no word stands behind a number, unless a number takes the place of a type
behind the word `final`. -/
theorem Sentence.settled {c : Clause} (h : Sentence c w) (hfinal : Token.NoneFinal w) :
    Settled w := by
  induction h with
  | block ha _ hb ih =>
    have hbody := (ih (fun t ht => hfinal t (by simp [ht]))).apart
    exact .concat (hbody.cons (isSign_of_fits ha (by decide)).1) (isSign_of_fits hb (by decide))
  | declaration ht hd =>
    refine hd.settled.cons ?_
    rcases ht with ht | ht
    · simp [Reading.kind_of_isType ht]
    · simp [ht]
  | finalDeclaration hf htext => exact absurd htext (hfinal _ (by simp) hf)
  | assignment ha => exact ha.settled
  | update hu hs => exact .concat hu.wordsApart (isSign_of_fits hs (by decide))
  | expression he hs | call he hs => exact .concat he.wordsApart (isSign_of_fits hs (by decide))
  | ifOnly hk he _ ih | whileLoop hk he _ ih =>
    exact (he.settled.cons (ne_number_of_fits hk (by decide))).append
      (ih fun t ht => hfinal t (by simp [ht]))
  | ifElse hk he _ hk' _ ihs ihs' =>
    have hfront := (he.settled.cons (ne_number_of_fits hk (by decide))).append
      (ihs fun t ht => hfinal t (by simp [ht]))
    exact hfront.append ((ihs' fun t ht => hfinal t (by simp [ht])).cons
      (ne_number_of_fits hk' (by decide)))
  | doWhileLoop hk _ hk' he hc ih =>
    have hbody := (ih fun t ht => hfinal t (by simp [ht])).cons (ne_number_of_fits hk (by decide))
    exact .concat (hbody.append (he.settled.cons (ne_number_of_fits hk' (by decide)))).apart
      (isSign_of_fits hc (by decide))
  | forLoop hk ha hinit htest hstep _ ih =>
    have hhead := (hinit.settled.cons (isSign_of_fits ha (by decide)).1).cons
      (ne_number_of_fits hk (by decide))
    exact ((hhead.append htest.settled).append hstep.settled).append
      (ih fun t ht => hfinal t (by simp [ht]))
  | nil => exact .nil
  | cons _ _ ihs ihss =>
    exact (ihs fun t ht => hfinal t (by simp [ht])).append
      (ihss fun t ht => hfinal t (by simp [ht]))

end Statements

/-! ## Names and words -/

/-- A name in a program is one that an expression uses, or the name or the type of a variable
that is declared. -/
theorem Program.mem_words {program : Program} {n : String} (hn : n ∈ program.words) :
    (∃ e ∈ program.exprs, n ∈ e.ownWords) ∨
      ∃ d ∈ program.declarations, n = d.name ∨ n = d.typeName := by
  obtain ⟨s, hs, hn⟩ := List.mem_flatMap.mp hn
  obtain ⟨part, hpart, hn⟩ := List.mem_flatMap.mp hn
  rcases List.mem_append.mp hn with hn | hn
  · obtain ⟨operand, hoperand, hn⟩ := List.mem_flatMap.mp hn
    obtain ⟨e, he, hn⟩ := List.mem_flatMap.mp hn
    have hown : e ∈ part.ownExprs := List.mem_flatMap.mpr ⟨operand, hoperand, he⟩
    exact .inl ⟨e, List.mem_flatMap.mpr ⟨s, hs, List.mem_flatMap.mpr ⟨part, hpart, hown⟩⟩, hn⟩
  · obtain ⟨d, hd, hn⟩ := List.mem_flatMap.mp hn
    refine .inr ⟨d, List.mem_filterMap.mpr ⟨.declares d, ?_, rfl⟩, by simpa using hn⟩
    rw [Stmt.allMentions_eq]
    exact List.mem_flatMap.mpr
      ⟨s, hs, Stmt.declares_mem_mentions hpart (Option.mem_toList.mp hd)⟩

/-- All names in a program are words among the tokens of its body, unless something else takes
the place of a type behind the word `final`. -/
theorem Program.hasWord_of_sentence {program : Program} {w : List Token} {n : String}
    (h : Sentence (.many program.body) w) (hfinal : Token.NoneFinal w) (hn : n ∈ program.words) :
    Token.HasWord w n := by
  rcases mem_words hn with ⟨e, he, hn⟩ | ⟨d, hd, rfl | rfl⟩
  · exact (h.spelled e he).words n hn
  · exact (h.along.declared d hd).2
  · obtain ⟨⟨t, ht, -, htext, htype | hkind | ⟨f, hft, hf, hname⟩⟩, -⟩ := h.along.declared d hd
    · exact ⟨t, ht, .inr (Reading.kind_of_isType htype), htext⟩
    · exact ⟨t, ht, .inl hkind, htext⟩
    · exact absurd hname (hfinal f (hft.subset List.mem_cons_self) hf)

/-! ## Programs -/

theorem Token.ne_number_of_isModifier {t : Token} (h : t.isModifier = true) :
    t.kind ≠ .number := by
  simp only [Token.isModifier, Bool.and_eq_true, Bool.or_eq_true, beq_iff_eq] at h
  rcases h.1 with h | h <;> simp [h]

theorem Frame.endsApart {params front back : List Token} (h : Frame params front back) :
    Token.EndsApart front := by
  induction h with
  | bare => exact fun _ ht => nomatch ht
  | @method t n a b o c params _ _ _ _ ho _ =>
    have hlast : Token.EndsApart (t :: n :: a :: params ++ [b] ++ [o]) :=
      .concat (isSign_of_fits ho (by decide)).1
    simpa using hlast
  | inClass hk hn ho hmods _ _ ih =>
    refine Token.EndsApart.append (Token.endsApart_of_forall ?_) ih
    simp only [List.forall_mem_cons]
    exact ⟨ne_number_of_fits hk (by decide), by simp [hn], (isSign_of_fits ho (by decide)).1,
      fun t ht => Token.ne_number_of_isModifier (hmods t ht)⟩

/-- All names in a program are words of its text. -/
theorem Program.mem_codePieces {text n : String} {tokens : List Token} {program : Program}
    (htokens : tokenize text = .ok tokens) (h : ofTokens tokens = .ok program)
    (hfinal : Token.NoneFinal tokens) (hn : n ∈ program.words) :
    ∃ p, .word p n.toList ∈ Scope.codePieces text := by
  obtain ⟨mods, front, w, back, e, rest, rfl, hmods, hframe, hbody, -⟩ :=
    exists_frame (Token.faithful_of_tokenize htokens) h
  have hfinal : Token.NoneFinal w := fun t ht => hfinal t (by simp [ht])
  obtain ⟨t, ht, hword, rfl⟩ := hasWord_of_sentence hbody hfinal hn
  obtain ⟨u, v, rfl⟩ := List.append_of_mem ht
  have hu := (hbody.settled hfinal).apart.endsApart hword
  have hmods : Token.EndsApart mods :=
    Token.endsApart_of_forall fun t ht => Token.ne_number_of_isModifier (hmods t ht)
  have hcut : mods ++ front ++ (u ++ t :: v) ++ back ++ e :: rest =
      (mods ++ front ++ u) ++ t :: (v ++ back ++ e :: rest) := by simp
  exact ⟨t.pos, (Token.shown_of_tokenize htokens).mem_of_isWord hcut hword (fun _ => rfl)
    ((hmods.append hframe.endsApart).append hu)⟩

namespace Scope

/-- The words that do not get past the scope of a text. -/
def refusedWords : List String :=
  ["interface", "implements", "extends", "throws", "try", "catch", "switch"]

theorem not_mem_refusedWords {text n : String} {p : Pos} (h : violation? text = none)
    (hn : .word p n.toList ∈ codePieces text) : n ∉ refusedWords := by
  have hplace : p ∈ places n (codePieces text) :=
    List.mem_filterMap.mpr ⟨_, hn, by simp⟩
  have hrules : ∀ rule ∈ rules, rule.2 (codePieces text) = none :=
    fun rule hrule => Option.map_eq_none_iff.mp (List.findSome?_eq_none_iff.mp h rule hrule)
  simp only [rules, List.forall_mem_cons] at hrules
  intro hrefused
  have hhead : (places n (codePieces text)).head? = none := by
    simp only [refusedWords, List.mem_cons, List.not_mem_nil, or_false] at hrefused
    rcases hrefused with rfl | rfl | rfl | rfl | rfl | rfl | rfl <;> simp only [hrules]
  rw [List.head?_eq_none_iff] at hhead
  simp [hhead] at hplace

end Scope

/-- **No refused word gets into a program.**  Where conversion is carried out to its end, the
text is that of a program.  Unless it has the word `final`, none of the names in the program
is one of the words that the scope of a text refuses: a name of a variable, of a function, of
a method or of a field, or of the type of a variable, of an array or of an object. -/
theorem convert_names_in_scope {source : String} {styleId : Option String} {report : Report}
    (hreport : convert source styleId = .ok report) (hok : report.errors = []) :
    ∃ tokens program, tokenize (Source.normalize source) = .ok tokens ∧
      Program.ofTokens tokens = .ok program ∧
      ((∀ t ∈ tokens, t.kind = .identifier → t.text ≠ "final") →
        ∀ n ∈ program.words, n ∉ Scope.refusedWords) := by
  obtain ⟨report', hreport', hsettles⟩ := Conversion.run_settles source styleId
  obtain rfl := Except.ok.inj (hreport'.symm.trans hreport)
  rcases hsettles with ⟨style, program, page, hpasses, -, -⟩ | ⟨-, d, -, rfl⟩
  · obtain ⟨tokens, htokens, hprogram⟩ := hpasses.read
    refine ⟨tokens, program, htokens, hprogram, ?_⟩
    intro hfinal n hn
    obtain ⟨p, hp⟩ := Program.mem_codePieces htokens hprogram hfinal hn
    exact Scope.not_mem_refusedWords hpasses.inScope hp
  · cases hok

/-- Names that are near to refused words, a refused word in a literal, and a number before a
name. -/
def nearMisses : String :=
  "Try tries = 1 + switches[0].trying(\"try\");"

/-- Its tokens. -/
def nearMissesTokens : List Token :=
  [⟨.identifier, "Try", ⟨1, 1⟩⟩, ⟨.identifier, "tries", ⟨1, 5⟩⟩, ⟨.operator, "=", ⟨1, 11⟩⟩,
    ⟨.number, "1", ⟨1, 13⟩⟩, ⟨.operator, "+", ⟨1, 15⟩⟩, ⟨.identifier, "switches", ⟨1, 17⟩⟩,
    ⟨.bracket, "[", ⟨1, 25⟩⟩, ⟨.number, "0", ⟨1, 26⟩⟩, ⟨.bracket, "]", ⟨1, 27⟩⟩,
    ⟨.dot, ".", ⟨1, 28⟩⟩, ⟨.identifier, "trying", ⟨1, 29⟩⟩, ⟨.paren, "(", ⟨1, 35⟩⟩,
    ⟨.string, "\"try\"", ⟨1, 36⟩⟩, ⟨.paren, ")", ⟨1, 41⟩⟩, ⟨.semicolon, ";", ⟨1, 42⟩⟩,
    ⟨.eof, "", ⟨1, 43⟩⟩]

theorem tokenize_nearMisses : tokenize nearMisses = .ok nearMissesTokens :=
  tokenize_of_toOption (by decide +kernel)

theorem convert_nearMisses : convert nearMisses (some "sc-01") =
    .ok ⟨some "tries = 1 + switches[0].trying(\"try\")", []⟩ := by
  have hblank : Text.isBlankText nearMisses = false := by decide +kernel
  have hnormal : Source.normalize nearMisses = nearMisses := by decide +kernel
  have hscope : Scope.violation? nearMisses = none := by decide +kernel
  have hstyle : Style.select (some "sc-01") = .ok (.capital "sc-01") := rfl
  unfold convert Conversion.run
  rw [hblank, hstyle]
  unfold Conversion.ofSource
  simp only [hnormal, hscope, tokenize_nearMisses, Conversion.ofTokens, Bool.false_eq_true,
    if_false]
  rfl

theorem convert_names_in_scope_nearMisses :
    convert nearMisses (some "sc-01") =
        .ok ⟨some "tries = 1 + switches[0].trying(\"try\")", []⟩ ∧
      ∃ program, Program.ofTokens nearMissesTokens = .ok program ∧
        program.words = ["trying", "switches", "tries", "Try"] ∧
        ∀ n ∈ program.words, n ∉ Scope.refusedWords := by
  refine ⟨convert_nearMisses, ?_⟩
  obtain ⟨tokens, program, htokens, hprogram, hwords⟩ :=
    convert_names_in_scope convert_nearMisses rfl
  have hnormal : Source.normalize nearMisses = nearMisses := by decide +kernel
  rw [hnormal, tokenize_nearMisses] at htokens
  obtain rfl := Except.ok.inj htokens
  refine ⟨program, hprogram, ?_, hwords (by decide)⟩
  obtain rfl := Except.ok.inj hprogram
  rfl

end Pseudocode
