import Pseudocode.Proofs.Reader.Comparisons
import Pseudocode.Proofs.Reader.Cursor
import Pseudocode.Proofs.Scope.Words
import Pseudocode.Proofs.Token.Coverage
set_option autoImplicit false

/-!
# Comparisons that look like type arguments

Type arguments are found by their look, before a text is read.  No expression has type
arguments, but comparisons next to each other may look the same.  We show that in the text
of a program nothing else does, apart from the parameters of its method, which are not read.
-/

namespace Pseudocode

open Reading (levelOp? loosest)
open Scope (Piece isCapitalized opensArguments closesArguments)

/-! ## The look of type arguments -/

namespace Token

/-- A word that starts with a capital letter. -/
def IsCapital (t : Token) : Prop :=
  t.IsWord ∧ isCapitalized t.text.toList = true

/-- A sign that starts with `>`. -/
def IsGreater (t : Token) : Prop :=
  t.kind = .operator ∧ (t.text = ">" ∨ t.text = ">=")

/-- The tokens behind a type argument, up to the sign that closes all of them, with the
further arguments. -/
inductive ClosesArguments : List String → List Token → Prop where
  | close {t : Token} (ht : t.IsGreater) : ClosesArguments [] [t]
  | comma {c t : Token} {ns : List String} {ts : List Token} (hc : Pattern.comma.fits c = true)
      (ht : t.IsCapital) (hts : ClosesArguments ns ts) :
      ClosesArguments (t.text :: ns) (c :: t :: ts)
  | brackets {a b : Token} {ns : List String} {ts : List Token}
      (ha : Pattern.openBracket.fits a = true) (hb : Pattern.closeBracket.fits b = true)
      (hts : ClosesArguments ns ts) : ClosesArguments ns (a :: b :: ts)

/-- The tokens look like a type with type arguments. -/
inductive LooksGeneric : String → List String → List Token → Prop where
  | diamond {t a b : Token} (ht : t.IsCapital) (ha : a.IsLess) (hb : b.IsGreater) :
      LooksGeneric t.text [] [t, a, b]
  | arguments {t a u : Token} {ns : List String} {ts : List Token} (ht : t.IsCapital)
      (ha : a.IsLess) (hu : u.IsCapital) (hts : ClosesArguments ns ts) :
      LooksGeneric t.text (u.text :: ns) (t :: a :: u :: ts)

variable {ts : List Token} {ps : List Piece}

theorem not_isCapitalized_of_isDigit {c : Char} {cs : List Char} (hc : c.isDigit = true) :
    isCapitalized (c :: cs) = false := by
  cases hupper : isCapitalized (c :: cs) with
  | false => rfl
  | true =>
    have hstart : isWordStart c = true := by
      rw [isCapitalized] at hupper
      unfold isWordStart Char.isAlpha
      rw [hupper]
      rfl
    simp [Numeral.isWordStart_of_isDigit hc] at hstart

/-- A capitalized word of the text is a token. -/
theorem Shown.word_cases {p : Pos} {word : List Char} (h : Shown false ts (.word p word :: ps))
    (hword : isCapitalized word = true) :
    ∃ t us, ts = t :: us ∧ t.IsCapital ∧ t.pos = p ∧ Shown false us ps := by
  generalize hpieces : Piece.word p word :: ps = qs at h
  cases h with
  | eof => cases hpieces
  | word ht hts =>
    cases hpieces
    exact ⟨_, _, rfl, ⟨ht, hword⟩, rfl, hts⟩
  | @number _ _ t us numeric _ ht hnumeric hne hts =>
    exfalso
    cases numeric with
    | nil => exact hne rfl rfl
    | cons piece numeric =>
      obtain ⟨rfl, -⟩ := List.cons.inj hpieces
      obtain heq | ⟨q, c, cs, heq, hc⟩ := hnumeric _ List.mem_cons_self
      · cases heq
      · cases heq
        simp [not_isCapitalized_of_isDigit hc] at hword
  | literal => cases hpieces
  | @marks _ t us _ ht hmarks hts =>
    obtain ⟨c, hc, -⟩ := isLexeme_head ht
    obtain ⟨cs, hcs⟩ := List.head?_eq_some_iff.mp hc
    rw [hcs] at hpieces
    cases hpieces

/-- A sign of the text starts a token. -/
theorem Shown.sign_cases {c : Char} (h : Shown false ts (.sign c :: ps))
    (hc : c ∈ ['<', '>', ',', '[', ']']) :
    ∃ t us cs qs, ts = t :: us ∧ t.text.toList = c :: cs ∧ isLexeme t.kind t.text = true ∧
      ps = cs.map .sign ++ qs ∧ Shown false us qs := by
  generalize hpieces : Piece.sign c :: ps = qs at h
  cases h with
  | eof | word => cases hpieces
  | @number _ _ t us numeric _ ht hnumeric hne hts =>
    exfalso
    cases numeric with
    | nil => exact hne rfl rfl
    | cons piece numeric =>
      obtain ⟨rfl, -⟩ := List.cons.inj hpieces
      obtain heq | ⟨q, d, ds, heq, -⟩ := hnumeric _ List.mem_cons_self
      · cases heq
        simp at hc
      · cases heq
  | literal _ hq hts =>
    cases hpieces
    rcases eq_of_isQuote hq with rfl | rfl <;> simp at hc
  | @marks _ t us _ ht hmarks hts =>
    obtain ⟨d, hd, -⟩ := isLexeme_head ht
    obtain ⟨cs, hcs⟩ := List.head?_eq_some_iff.mp hd
    rw [hcs] at hpieces
    cases hpieces
    exact ⟨t, us, cs, _, rfl, hcs, ht, rfl, hts⟩

/-- A token that starts with one of the signs of type arguments is that sign, but for `<=` and
`>=`. -/
theorem sign_of_isLexeme {t : Token} {c : Char} {cs : List Char}
    (h : isLexeme t.kind t.text = true) (htext : t.text.toList = c :: cs)
    (hc : c ∈ ['<', '>', ',', '[', ']']) :
    (cs = [] ∧ signs.lookup c = some t.kind) ∨
      (cs = ['='] ∧ t.kind = .operator ∧ (c = '<' ∨ c = '>')) := by
  have hmark : isWordStart c = false ∧ c.isDigit = false ∧ Source.isQuote c = false ∧
      (∀ d, (c, d) ∈ pairs → d = '=' ∧ (c = '<' ∨ c = '>')) := by
    simp only [List.mem_cons, List.not_mem_nil, or_false] at hc
    rcases hc with rfl | rfl | rfl | rfl | rfl <;>
      exact ⟨by decide, by decide, by decide, by simp [pairs]⟩
  obtain ⟨c', cs', htext', hlexeme⟩ := isLexeme_iff.mp h
  rw [htext', String.toList_ofList] at htext
  obtain ⟨rfl, rfl⟩ := List.cons.inj htext
  obtain ⟨body, rest, rfl, hlength, hshape⟩ := exists_of_lexeme hlexeme
  obtain rfl : rest = [] := by simpa using hlength
  rw [List.append_nil]
  generalize t.kind = kind at hshape
  cases hshape with
  | word hstart => simp [hmark.1] at hstart
  | number hdigit => simp [hmark.2.1] at hdigit
  | literal hquote => simp [hmark.2.2.1] at hquote
  | double d hbody hpair =>
    obtain ⟨rfl, hc⟩ := hmark.2.2.2 d hpair
    exact .inr ⟨hbody, rfl, hc⟩
  | single hbody hsign => exact .inl ⟨hbody, hsign⟩

theorem Shown.less_cases (h : Shown false ts (.sign '<' :: ps))
    (hps : ps.head? ≠ some (.sign '=')) : ∃ t us, ts = t :: us ∧ t.IsLess ∧ Shown false us ps := by
  obtain ⟨t, us, cs, qs, rfl, htext, hlexeme, rfl, hus⟩ := h.sign_cases (by decide)
  rcases sign_of_isLexeme hlexeme htext (by decide) with ⟨rfl, hkind⟩ | ⟨rfl, -⟩
  · refine ⟨t, us, rfl, ⟨?_, String.toList_inj.mp htext⟩, hus⟩
    exact (Option.some.inj hkind).symm
  · exact absurd rfl hps

theorem Shown.greater_cases (h : Shown false ts (.sign '>' :: ps)) :
    ∃ t us, ts = t :: us ∧ t.IsGreater := by
  obtain ⟨t, us, cs, qs, rfl, htext, hlexeme, rfl, hus⟩ := h.sign_cases (by decide)
  refine ⟨t, us, rfl, ?_⟩
  rcases sign_of_isLexeme hlexeme htext (by decide) with ⟨rfl, hkind⟩ | ⟨rfl, hkind, -⟩
  · exact ⟨(Option.some.inj hkind).symm, .inl (String.toList_inj.mp htext)⟩
  · exact ⟨hkind, .inr (String.toList_inj.mp htext)⟩

theorem Shown.fits_cases {c : Char} {p : Pattern} (h : Shown false ts (.sign c :: ps))
    (hc : c ∈ [',', '[', ']']) (hkind : signs.lookup c = some p.kind)
    (htext : p.text = some (String.ofList [c])) :
    ∃ t us, ts = t :: us ∧ p.fits t = true ∧ Shown false us ps := by
  have hsign : c ∈ ['<', '>', ',', '[', ']'] :=
    List.mem_cons_of_mem _ (List.mem_cons_of_mem _ hc)
  obtain ⟨t, us, cs, qs, rfl, htext', hlexeme, rfl, hus⟩ := h.sign_cases hsign
  rcases sign_of_isLexeme hlexeme htext' hsign with ⟨rfl, hkind'⟩ | ⟨-, -, rfl | rfl⟩
  · refine ⟨t, us, rfl, ?_, hus⟩
    have hkinds : p.kind = t.kind := Option.some.inj (hkind.symm.trans hkind')
    simp [Pattern.fits, htext, hkinds, ← htext']
  · simp at hc
  · simp at hc

/-- Type arguments in the text are tokens that look like them. -/
theorem Shown.exists_closing {ts : List Token} {ps : List Piece} (h : Shown false ts ps)
    (hcloses : closesArguments ps = true) :
    ∃ ns run back, ts = run ++ back ∧ ClosesArguments ns run := by
  fun_induction closesArguments ps generalizing ts with
  | case1 ps ih =>
    obtain ⟨a, us, rfl, ha, hus⟩ := h.fits_cases (p := .openBracket) (by decide) rfl rfl
    obtain ⟨b, vs, rfl, hb, hvs⟩ := hus.fits_cases (p := .closeBracket) (by decide) rfl rfl
    obtain ⟨ns, run, back, rfl, hrun⟩ := ih hvs hcloses
    exact ⟨ns, a :: b :: run, back, rfl, .brackets ha hb hrun⟩
  | case2 q word ps ih =>
    obtain ⟨hword, hcloses⟩ := Bool.and_eq_true_iff.mp hcloses
    obtain ⟨c, us, rfl, hc, hus⟩ := h.fits_cases (p := .comma) (by decide) rfl rfl
    obtain ⟨t, vs, rfl, ht, -, hvs⟩ := hus.word_cases hword
    obtain ⟨ns, run, back, rfl, hrun⟩ := ih hvs hcloses
    exact ⟨t.text :: ns, c :: t :: run, back, rfl, .comma hc ht hrun⟩
  | case3 ps =>
    obtain ⟨t, us, rfl, ht⟩ := h.greater_cases
    exact ⟨[], [t], us, rfl, .close ht⟩
  | case4 => cases hcloses

theorem Shown.exists_generic {ts : List Token} {ps : List Piece} {t : Token} (ht : t.IsCapital)
    (h : Shown false ts ps) (hopens : opensArguments ps = true) :
    ∃ args run back, ts = run ++ back ∧ LooksGeneric t.text args (t :: run) := by
  fun_cases opensArguments ps with
  | case1 ps =>
    obtain ⟨a, us, rfl, ha, hus⟩ := h.less_cases (by simp)
    obtain ⟨b, vs, rfl, hb⟩ := hus.greater_cases
    exact ⟨[], [a, b], vs, rfl, .diamond ht ha hb⟩
  | case2 q word ps =>
    obtain ⟨hword, hcloses⟩ := Bool.and_eq_true_iff.mp hopens
    obtain ⟨a, us, rfl, ha, hus⟩ := h.less_cases (by simp)
    obtain ⟨u, vs, rfl, hu, -, hvs⟩ := hus.word_cases hword
    obtain ⟨ns, run, back, rfl, hrun⟩ := hvs.exists_closing hcloses
    exact ⟨u.text :: ns, a :: u :: run, back, rfl, .arguments ht ha hu hrun⟩
  | case3 => simp_all [Scope.opensArguments]

/-- A capitalized word of the text, with what is behind it. -/
theorem Shown.exists_word {glued : Bool} {ts : List Token} {before after ps : List Piece} {p : Pos}
    {word : List Char} (h : Shown glued ts ps) (hps : ps = before ++ .word p word :: after)
    (hword : isCapitalized word = true) :
    ∃ front t back, ts = front ++ t :: back ∧ t.IsCapital ∧ t.pos = p ∧ Shown false back after := by
  induction h generalizing before with
  | eof => simp at hps
  | word ht hts ih =>
    cases before with
    | nil =>
      cases hps
      exact ⟨[], _, _, rfl, ⟨ht, hword⟩, rfl, hts⟩
    | cons piece before =>
      obtain ⟨front, t, back, rfl, ht⟩ := ih (List.cons.inj hps).2
      exact ⟨_ :: front, t, back, rfl, ht⟩
  | gluedWord _ _ ih =>
    obtain ⟨front, t, back, rfl, ht⟩ := ih hps
    exact ⟨_ :: front, t, back, rfl, ht⟩
  | @number _ _ _ _ numeric _ _ hnumeric _ _ ih =>
    have hnot : .word p word ∉ numeric := by
      intro hmem
      obtain heq | ⟨q, c, cs, heq, hc⟩ := hnumeric _ hmem
      · cases heq
      · cases heq
        simp [not_isCapitalized_of_isDigit hc] at hword
    obtain ⟨before', -, hps'⟩ := append_eq_append_cons_of_not_mem hps hnot
    obtain ⟨front, t, back, rfl, ht⟩ := ih hps'
    exact ⟨_ :: front, t, back, rfl, ht⟩
  | @literal _ _ q _ ps _ _ _ ih =>
    have hquotes : [Piece.sign q, .sign q] ++ ps = before ++ .word p word :: after := hps
    obtain ⟨before', -, hps'⟩ := append_eq_append_cons_of_not_mem hquotes (by simp)
    obtain ⟨front, t, back, rfl, ht⟩ := ih hps'
    exact ⟨_ :: front, t, back, rfl, ht⟩
  | marks _ _ _ ih =>
    obtain ⟨before', -, hps'⟩ := append_eq_append_cons_of_not_mem hps (by simp)
    obtain ⟨front, t, back, rfl, ht⟩ := ih hps'
    exact ⟨_ :: front, t, back, rfl, ht⟩

/-- Where type arguments are found in a text, its tokens look like them. -/
theorem exists_looksGeneric {text : String} {tokens : List Token} {p : Pos}
    (htokens : tokenize text = .ok tokens) (h : Scope.violation? text = some (.generics, p)) :
    ∃ before run after name args, tokens = before ++ run ++ after ∧
      run.head?.map Token.pos = some p ∧ LooksGeneric name args run := by
  obtain ⟨before, word, after, hpieces, hshows⟩ := Scope.exists_of_violation? h
  rw [Construct.Shows, if_pos rfl, Bool.and_eq_true] at hshows
  obtain ⟨⟨hword, hopens⟩, -⟩ := hshows
  obtain ⟨front, t, back, rfl, ht, rfl, hback⟩ :=
    (shown_of_tokenize htokens).exists_word hpieces hword
  obtain ⟨args, run, rest, rfl, hrun⟩ := hback.exists_generic ht hopens
  exact ⟨front, t :: run, rest, t.text, args, by simp, rfl, hrun⟩

theorem IsCapital.not_fits {t : Token} (ht : t.IsCapital) {p : Pattern}
    (hp : p.kind ≠ .identifier ∧ p.kind ≠ .keyword) : ¬ p.fits t = true := by
  intro h
  rcases ht.1 with hkind | hkind
  · exact hp.1 ((Reading.kind_of_fits h).symm.trans hkind)
  · exact hp.2 ((Reading.kind_of_fits h).symm.trans hkind)

theorem not_fits_of_opensOperand {t : Token} (h : t.OpensOperand) :
    ¬ Pattern.closeBracket.fits t = true := by
  intro hfits
  have hmem := h.kind_mem
  rw [Reading.kind_of_fits hfits] at hmem
  exact absurd hmem (by decide)

theorem IsCapital.ne_final {t : Token} (ht : t.IsCapital) : t.text ≠ "final" := by
  intro htext
  have hupper := ht.2
  rw [htext] at hupper
  exact absurd hupper (by decide)

theorem IsCapital.kind_of_opensOperand {t : Token} (ht : t.IsCapital) (h : t.OpensOperand) :
    t.kind = .identifier := by
  rcases ht.1 with hkind | hkind
  · exact hkind
  have hword : ∀ {text : String}, isCapitalized text.toList = false →
      ¬ (Pattern.keyword text).fits t = true := by
    intro text hlower hfits
    have hupper := ht.2
    rw [Reading.text_of_fits hfits rfl, hlower] at hupper
    cases hupper
  rcases h with h | h | (h | h | h | h) | h | h
  · exact h
  · exact absurd h (ht.not_fits (by decide))
  · simp [h] at hkind
  · simp [h] at hkind
  · exact absurd h (hword (by decide))
  · exact absurd h (hword (by decide))
  · exact absurd h (hword (by decide))
  · obtain ⟨op, hop⟩ := Option.isSome_iff_exists.mp h
    simp [(unaryOp?_eq_some hop).1] at hkind

end Token

/-! ## Names at the ends of an expression -/

namespace Expr

/-- The name with which an expression ends. -/
def lastName? : Expr → Option String
  | .name _ n | .property _ _ n => some n
  | .length .. => some "length"
  | .unary _ _ e => lastName? e
  | .binary _ _ _ r => lastName? r
  | _ => none

/-- The expression and the operands at its left end. -/
def leftSpine : Expr → List Expr
  | .binary p op l r => .binary p op l r :: leftSpine l
  | e => [e]

end Expr

/-- The expression of a phrase without assignments and lists. -/
def Phrase.tight? : Phrase → Option Expr
  | .base e | .level _ e => some e
  | _ => none

/-- An expression ends with a capitalized word only if this is a name. -/
theorem Derives.lastName?_eq {φ : Phrase} {w : List Token} (h : Derives φ w) {t : Token}
    (ht : t.IsCapital) (hlast : w.getLast? = some t) :
    ∀ e ∈ φ.tight?, e.lastName? = some t.text := by
  have hclosed : ∀ {p : Pattern} {u : List Token} {b : Token}, (u ++ [b]).getLast? = some t →
      p.kind ≠ .identifier ∧ p.kind ≠ .keyword → ¬ p.fits b = true := by
    intro p u b hlast hp
    rw [List.getLast?_concat] at hlast
    cases hlast
    exact ht.not_fits hp
  induction h with
  | name =>
    rw [List.getLast?_singleton] at hlast
    cases hlast
    rintro e ⟨⟩
    rfl
  | paren _ _ hb | call _ _ _ hb | methodCall _ _ _ _ _ hb | newObject _ _ _ _ hb =>
    exact absurd hb (hclosed hlast (by decide))
  | length _ _ _ htext =>
    rw [List.getLast?_append_cons, List.getLast?_cons_cons, List.getLast?_singleton] at hlast
    cases hlast
    rintro e ⟨⟩
    rw [htext]
    rfl
  | property =>
    rw [List.getLast?_append_cons, List.getLast?_cons_cons, List.getLast?_singleton] at hlast
    cases hlast
    rintro e ⟨⟩
    rfl
  | index _ hes hne =>
    have hnil := hes.ne_nil (by simpa [Phrase.IsEmpty] using hne)
    rw [List.getLast?_append_of_ne_nil _ hnil] at hlast
    exact absurd (hes.last_of_brackets t hlast) (ht.not_fits (by decide))
  | operand _ ih => exact ih hlast
  | update _ hop =>
    rw [List.getLast?_concat] at hlast
    cases hlast
    rcases ht.1 with hkind | hkind <;> simp [(Token.updateOp?_eq_some hop).1] at hkind
  | literal hconstant =>
    rw [List.getLast?_singleton] at hlast
    cases hlast
    have hmem := hconstant.kind_mem
    simp [ht.kind_of_opensOperand (.inr (.inr (.inl hconstant)))] at hmem
  | newArray _ _ hes hne =>
    have hw := hes.ne_nil (by simpa [Phrase.IsEmpty] using hne)
    rw [List.getLast?_cons_cons, List.getLast?_cons_of_ne_nil hw] at hlast
    exact absurd (hes.last_of_brackets t hlast) (ht.not_fits (by decide))
  | newElements _ _ _ _ he =>
    rw [List.getLast?_append_of_ne_nil _ (he.ne_nil id)] at hlast
    cases he with
    | braces _ _ hb => exact absurd hb (hclosed hlast (by decide))
  | unary _ he ih =>
    rw [List.getLast?_cons_of_ne_nil (he.ne_nil id)] at hlast
    rintro e ⟨⟩
    have hname := ih hlast _ rfl
    exact hname
  | climb _ ih => exact ih hlast
  | binary _ _ hr _ ihr =>
    rw [List.getLast?_append_cons, List.getLast?_cons_of_ne_nil (hr.ne_nil id)] at hlast
    rintro e ⟨⟩
    have hname := ihr hlast _ rfl
    exact hname
  | plain | assign | braces | expressionItem | elementsItem | noItem | lastItem
  | moreItems | noBrackets | filled | empty => nofun

/-! ## Names at the front of an expression -/

/-- The expression of a phrase without lists, and the level of its operators. -/
def Phrase.leveled? : Phrase → Option (Nat × Expr)
  | .base e => some (0, e)
  | .level n e => some (n, e)
  | .whole e | .item _ e => some (loosest, e)
  | _ => none

/-- What stands behind a name `b` at the front of an expression with operators of at most the
level `n`. -/
inductive Opening (b : Token) (n : Nat) (e : Expr) : List Token → Prop where
  | alone (he : e = .name b.pos b.text) : Opening b n e []
  | bracket {x y : Token} {ys : List Token} (hx : Pattern.openBracket.fits x = true)
      (hy : ¬ Pattern.closeBracket.fits y = true) : Opening b n e (x :: y :: ys)
  | operator {x : Token} {xs : List Token} {p : Pos} {op : BinaryOp} {r : Expr} (hn : 3 ≤ n)
      (hop : x.binaryOp? = some op) (he : .binary p op (.name b.pos b.text) r ∈ e.leftSpine) :
      Opening b n e (x :: xs)
  | other {x : Token} {xs : List Token} (hx : ¬ x.GoesOn) : Opening b n e (x :: xs)

/-- From a part at the front to the whole. -/
theorem Opening.lift {b : Token} {n n' : Nat} {e e' : Expr} {us z : List Token}
    (h : Opening b n e us) (hn : n ≤ n')
    (hspine : ∀ p op l r, .binary p op l r ∈ e.leftSpine → 3 ≤ n →
      .binary p op l r ∈ e'.leftSpine)
    (halone : e = .name b.pos b.text → Opening b n' e' z) : Opening b n' e' (us ++ z) := by
  cases h with
  | alone he => exact halone he
  | bracket hx hy => exact .bracket hx hy
  | operator hn' hop he => exact .operator (hn'.trans hn) hop (hspine _ _ _ _ he hn')
  | other hx => exact .other hx

theorem Derives.exists_front {φ : Phrase} {u z us : List Token} {b : Token} (h : Derives φ u)
    (hφ : ¬ φ.IsEmpty) (hw : u ++ z = b :: us) : ∃ us', u = b :: us' ∧ us = us' ++ z := by
  obtain ⟨t, us', rfl⟩ := List.exists_cons_of_ne_nil (h.ne_nil hφ)
  obtain ⟨rfl, rfl⟩ := List.cons.inj hw
  exact ⟨us', rfl, rfl⟩

/-- The first bracket behind an array is not empty. -/
theorem Derives.opening_of_brackets {es : List Expr} {w : List Token}
    (h : Derives (.brackets (es.map some)) w) (hne : es ≠ []) (b : Token) (n : Nat) (e : Expr) :
    Opening b n e w := by
  obtain ⟨d, ds, rfl⟩ := List.exists_cons_of_ne_nil hne
  cases h with
  | filled ha he hb hds =>
    obtain ⟨hempty, -⟩ | ⟨y, ys, rfl, hy⟩ := he.first
    · exact hempty.elim
    · exact .bracket ha (Token.not_fits_of_opensOperand hy)

/-- What stands behind a name at the front of an expression. -/
theorem Derives.opening {φ : Phrase} {w : List Token} (h : Derives φ w) {b : Token}
    {us : List Token} (hb : b.kind = .identifier) (hw : w = b :: us) :
    ∀ n e, φ.leveled? = some (n, e) → Opening b n e us := by
  have hfirst : ∀ {p : Pattern}, p.kind ≠ .identifier → ¬ p.fits b = true :=
    fun hp hfits => hp ((Reading.kind_of_fits hfits).symm.trans hb)
  induction h generalizing us with
  | name =>
    cases hw
    rintro n e ⟨⟩
    exact .alone rfl
  | paren ha =>
    cases hw
    exact absurd ha (hfirst (by decide))
  | call hf ha _ _ ihf =>
    rw [List.append_assoc] at hw
    obtain ⟨us', rfl, rfl⟩ := hf.exists_front id hw
    rintro n e ⟨⟩
    exact (ihf rfl _ _ rfl).lift le_rfl (by simp) fun _ =>
      .other (Token.not_goesOn_of_fits ha rfl (by decide))
  | methodCall he hd _ _ _ _ ihe =>
    rw [List.append_assoc] at hw
    obtain ⟨us', rfl, rfl⟩ := he.exists_front id hw
    rintro n e ⟨⟩
    exact (ihe rfl _ _ rfl).lift le_rfl (by simp) fun _ =>
      .other (Token.not_goesOn_of_fits hd rfl (by decide))
  | length he hd _ _ ih | property he hd _ _ ih =>
    obtain ⟨us', rfl, rfl⟩ := he.exists_front id hw
    rintro n e ⟨⟩
    exact (ih rfl _ _ rfl).lift le_rfl (by simp) fun _ =>
      .other (Token.not_goesOn_of_fits hd rfl (by decide))
  | index he hes hne ihe =>
    obtain ⟨us', rfl, rfl⟩ := he.exists_front id hw
    rintro n e ⟨⟩
    exact (ihe rfl _ _ rfl).lift le_rfl (by simp) fun _ => hes.opening_of_brackets hne _ _ _
  | operand _ ih => exact ih hw
  | update he ht ih =>
    obtain ⟨us', rfl, rfl⟩ := he.exists_front id hw
    rintro n e ⟨⟩
    exact (ih rfl _ _ rfl).lift le_rfl (by simp) fun _ =>
      .other (Token.not_goesOn_of_updateOp? ht)
  | literal ht =>
    cases hw
    have hmem := ht.kind_mem
    simp [hb] at hmem
  | newObject hk | newArray hk | newElements hk =>
    cases hw
    exact absurd hk (hfirst (by decide))
  | unary ht =>
    cases hw
    simp [(Token.unaryOp?_eq_some ht).1] at hb
  | climb _ ih =>
    rintro n e ⟨⟩
    have hlift := (ih hw _ _ rfl).lift (Nat.le_succ _) (fun _ _ _ _ h _ => h) Opening.alone
    rwa [List.append_nil] at hlift
  | @binary n l r t op u w hl ht _ ihl =>
    obtain ⟨us', rfl, rfl⟩ := hl.exists_front id hw
    rintro n' e ⟨⟩
    refine (ihl rfl _ _ rfl).lift le_rfl (fun _ _ _ _ h _ => List.mem_cons_of_mem _ h) ?_
    rintro rfl
    by_cases h2 : n = 2
    · exact .operator (by omega) (Option.mem_filter_iff.mp ht).1 List.mem_cons_self
    · exact .other (Token.not_goesOn_of_level ht h2)
  | plain _ ih => exact ih hw
  | @assign l v t op u w hl htarget ht _ ihl =>
    obtain ⟨us', rfl, rfl⟩ := hl.exists_front id hw
    rintro n' e ⟨⟩
    refine (ihl rfl _ _ rfl).lift le_rfl ?_ fun _ => .other (Token.not_goesOn_of_assignOp? ht)
    intro p op' l' r' hmem
    cases l <;> simp [Expr.isTarget, Expr.leftSpine] at htarget hmem
  | expressionItem _ ih => exact ih hw
  | elementsItem he =>
    obtain ⟨hempty, -⟩ | ⟨t, ts, rfl, ht⟩ := he.first
    · exact hempty.elim
    · cases hw
      exact absurd ht (hfirst (by decide))
  | braces | noItem | lastItem | moreItems | noBrackets | filled | empty => nofun

/-! ## Comparisons that look like type arguments -/

namespace Expr

/-- The expression ends with a comparison `a < b`, where `b` is a name and `a` is the name at
the end of the left operand. -/
def EndsLess (e : Expr) (a b : String) : Prop :=
  ∃ p q l, l.lastName? = some a ∧ .binary p .lt l (.name q b) ∈ e.rightSpine

/-- The expression starts with a comparison `n > ..` or `n >= ..`, where `n` is a name. -/
def StartsGreater (e : Expr) (n : String) : Prop :=
  ∃ p q op r, (op = .gt ∨ op = .ge) ∧ .binary p op (.name q n) r ∈ e.leftSpine

/-- The expressions are names up to one that starts with the last name and a comparison. -/
inductive Continues : List Expr → List String → Prop where
  | last {e : Expr} {es : List Expr} {n : String} (he : e.StartsGreater n) : Continues (e :: es) [n]
  | more {q : Pos} {n : String} {es : List Expr} {ns : List String} (hes : Continues es ns) :
      Continues (.name q n :: es) (n :: ns)

/-- Comparisons that are written like the type `name` with type arguments.

- `chained`: `name < b > ..`, a comparison of a comparison.
- `listed`: `.. name < b, c, d > ..`, arguments or elements next to each other. -/
inductive ComparesLike : Expr → String → List String → Prop where
  | chained {p q s : Pos} {op : BinaryOp} {l r : Expr} {name b : String}
      (hop : op = .gt ∨ op = .ge) (hl : l.lastName? = some name) :
      ComparesLike (.binary p op (.binary q .lt l (.name s b)) r) name [b]
  | listed {e first : Expr} {front more : List Expr} {name b : String} {ns : List String}
      (hitems : e.items = front ++ first :: more) (hfirst : first.EndsLess name b)
      (hmore : Continues more ns) : ComparesLike e name (b :: ns)

end Expr

open Token (ClosesArguments)

theorem Token.IsGreater.op_cases {t : Token} (ht : t.IsGreater) {op : BinaryOp}
    (hop : t.binaryOp? = some op) : op = .gt ∨ op = .ge :=
  ht.2.imp (Token.op_of_text hop .gt (by decide)) (Token.op_of_text hop .ge (by decide))

theorem Token.IsGreater.not_opensOperand {t : Token} (ht : t.IsGreater) : ¬ t.OpensOperand := by
  intro h
  have hfits : ∀ {p : Pattern}, p.kind ≠ .operator → ¬ p.fits t = true :=
    fun hp hfits => hp ((Reading.kind_of_fits hfits).symm.trans ht.1)
  rcases h with h | h | h | h | h
  · simp [ht.1] at h
  · exact hfits (by decide) h
  · have hmem := h.kind_mem
    simp [ht.1] at hmem
  · exact hfits (by decide) h
  · obtain ⟨op, hop⟩ := Option.isSome_iff_exists.mp h
    have htext := Token.text_of_unaryOp? hop
    rcases ht.2 with ht | ht <;> simp [ht] at htext

/-- The first token behind a type argument goes on with them. -/
theorem Token.ClosesArguments.goesOn {ns : List String} {ts : List Token}
    (h : ClosesArguments ns ts) : ∃ t us, ts = t :: us ∧ t.GoesOn := by
  cases h with
  | close ht => exact ⟨_, _, rfl, by rcases ht.2 with ht | ht <;> simp [Token.GoesOn, ht]⟩
  | comma hc => exact ⟨_, _, rfl, by simp [Token.GoesOn, Reading.text_of_fits hc rfl]⟩
  | brackets ha => exact ⟨_, _, rfl, by simp [Token.GoesOn, Reading.text_of_fits ha rfl]⟩

/-- Behind a name at the front of an expression, type arguments can only go on if the name
stands alone or is compared. -/
theorem Opening.goesOn {b : Token} {n : Nat} {e : Expr} {us z after : List Token} {ns : List String}
    {ts : List Token} (h : Opening b n e us) (hts : ClosesArguments ns ts)
    (heq : us ++ z = ts ++ after) :
    (us = [] ∧ e = .name b.pos b.text) ∨ (3 ≤ n ∧ ns = [] ∧ e.StartsGreater b.text) := by
  cases h with
  | alone he => exact .inl ⟨rfl, he⟩
  | bracket hx hy =>
    have hkind := Reading.kind_of_fits hx
    cases hts with
    | close ht =>
      obtain ⟨rfl, -⟩ := List.cons.inj heq
      simp [ht.1, Pattern.openBracket] at hkind
    | comma hc =>
      obtain ⟨rfl, -⟩ := List.cons.inj heq
      simp [Reading.kind_of_fits hc, Pattern.comma, Pattern.openBracket] at hkind
    | brackets _ hb =>
      obtain ⟨-, htail⟩ := List.cons.inj heq
      obtain ⟨rfl, -⟩ := List.cons.inj htail
      exact absurd hb hy
  | operator hn hop he =>
    have hkind := (Token.binaryOp?_eq_some hop).1
    cases hts with
    | close ht =>
      obtain ⟨rfl, -⟩ := List.cons.inj heq
      exact .inr ⟨hn, rfl, _, _, _, _, ht.op_cases hop, he⟩
    | comma hc =>
      obtain ⟨rfl, -⟩ := List.cons.inj heq
      simp [Reading.kind_of_fits hc, Pattern.comma] at hkind
    | brackets ha =>
      obtain ⟨rfl, -⟩ := List.cons.inj heq
      simp [Reading.kind_of_fits ha, Pattern.openBracket] at hkind
  | other hx =>
    obtain ⟨t, us, rfl, ht⟩ := hts.goesOn
    obtain ⟨rfl, -⟩ := List.cons.inj heq
    exact absurd ht hx

theorem Derives.opening_of_item {braced : Bool} {e : Expr} {w z us : List Token} {t : Token}
    (h : Derives (.item braced e) w) (ht : t.IsCapital) (hw : w ++ z = t :: us) :
    ∃ us', w = t :: us' ∧ us = us' ++ z ∧ Opening t loosest e us' := by
  obtain ⟨us', rfl, rfl⟩ := h.exists_front id hw
  obtain ⟨hempty, -⟩ | ⟨t', us, heq, hstart⟩ := h.first
  · exact hempty.elim
  obtain ⟨rfl, rfl⟩ := List.cons.inj heq
  rcases hstart with hstart | ⟨-, hstart⟩
  · exact ⟨_, rfl, rfl, h.opening (ht.kind_of_opensOperand hstart) rfl _ _ rfl⟩
  · exact absurd hstart (ht.not_fits (by decide))

/-- The items behind a comma go on like type arguments. -/
theorem Expr.Continues.of_items {ns : List String} {ts : List Token} (h : ClosesArguments ns ts)
    {braced : Bool} {more : List Expr} {w z after : List Token} {k t : Token}
    (hmore : Derives (.items braced more) w) (hne : more ≠ []) (hk : ¬ k.GoesOn)
    (ht : t.IsCapital) (heq : w ++ k :: z = t :: (ts ++ after)) :
    Continues more (t.text :: ns) := by
  induction more generalizing w t ns ts with
  | nil => exact absurd rfl hne
  | cons e es ih =>
    cases hmore with
    | lastItem he =>
      obtain ⟨us, rfl, hus, hopening⟩ := he.opening_of_item ht heq
      rcases hopening.goesOn h hus.symm with ⟨rfl, -⟩ | ⟨-, rfl, hgreater⟩
      · -- The list ends where type arguments would go on.
        obtain ⟨g, gs, rfl, hg⟩ := h.goesOn
        obtain ⟨rfl, -⟩ := List.cons.inj hus
        exact absurd hg hk
      · exact .last hgreater
    | moreItems he hc hes =>
      rw [List.append_assoc] at heq
      obtain ⟨us, rfl, hus, hopening⟩ := he.opening_of_item ht heq
      rcases hopening.goesOn h hus.symm with ⟨rfl, rfl⟩ | ⟨-, rfl, hgreater⟩
      · have hkind := Reading.kind_of_fits hc
        cases h with
        | close hclose =>
          obtain ⟨rfl, -⟩ := List.cons.inj hus
          simp [hclose.1, Pattern.comma] at hkind
        | comma hc' ht' hts =>
          obtain ⟨-, htail⟩ := List.cons.inj hus
          exact .more (ih hts hes (List.cons_ne_nil _ _) ht' htail.symm)
        | brackets ha =>
          obtain ⟨rfl, -⟩ := List.cons.inj hus
          simp [Reading.kind_of_fits ha, Pattern.openBracket, Pattern.comma] at hkind
      · exact .last hgreater

/-- A comparison behind which type arguments go on. -/
theorem Follows.comparesLike {E : Expr → Prop} {p q : Pos} {l : Expr} {name b : String}
    {ns : List String} {v z ts after : List Token}
    (h : Follows E (.binary p .lt l (.name q b)) v) (hl : l.lastName? = some name)
    (hts : ClosesArguments ns ts) (heq : v ++ z = ts ++ after) :
    ∃ e, E e ∧ e.ComparesLike name (b :: ns) := by
  cases h with
  | operator hop he =>
    have hkind := (Token.binaryOp?_eq_some hop).1
    cases hts with
    | close ht =>
      obtain ⟨rfl, -⟩ := List.cons.inj heq
      exact ⟨_, he, .chained (ht.op_cases hop) hl⟩
    | comma hc =>
      obtain ⟨rfl, -⟩ := List.cons.inj heq
      simp [Reading.kind_of_fits hc, Pattern.comma] at hkind
    | brackets ha =>
      obtain ⟨rfl, -⟩ := List.cons.inj heq
      simp [Reading.kind_of_fits ha, Pattern.openBracket] at hkind
  | comma he hitems hx hc hmore hne hk =>
    have hkind := Reading.kind_of_fits hc
    cases hts with
    | close ht =>
      obtain ⟨rfl, -⟩ := List.cons.inj heq
      simp [ht.1, Pattern.comma] at hkind
    | comma _ ht hts =>
      simp only [List.cons_append, List.append_assoc, List.cons.injEq] at heq
      exact ⟨_, he, .listed hitems ⟨_, _, _, hl, hx⟩ (.of_items hts hmore hne hk ht heq.2)⟩
    | brackets ha =>
      obtain ⟨rfl, -⟩ := List.cons.inj heq
      simp [Reading.kind_of_fits ha, Pattern.openBracket, Pattern.comma] at hkind
  | other ht =>
    obtain ⟨g, gs, rfl, hg⟩ := hts.goesOn
    obtain ⟨rfl, -⟩ := List.cons.inj heq
    exact absurd hg ht

/-- Tokens round a comparison that look like type arguments. -/
theorem ComparesAt.comparesLike {E : Expr → Prop} {u v z run after : List Token} {t a : Token}
    {name : String} {args : List String} (h : ComparesAt Nowhere E u v)
    (hrun : Token.LooksGeneric name args (t :: a :: run)) (hu : ∀ f ∈ u.getLast?, f = t)
    (heq : v ++ z = run ++ after) : ∃ e, E e ∧ e.ComparesLike name args := by
  obtain ⟨p, l, r, u', wl, wr, v', rfl, rfl, hl, hr, -, hbehind⟩ := h
  have hfollows := hbehind.resolve_left id
  obtain ⟨f, hf⟩ := Option.ne_none_iff_exists'.mp (List.getLast?_eq_none_iff.not.mpr (hl.ne_nil id))
  obtain rfl := hu f (by rw [List.getLast?_append_of_ne_nil _ (hl.ne_nil id), hf]; rfl)
  rw [List.append_assoc] at heq
  obtain ⟨hempty, -⟩ | ⟨x, xs, rfl, hx⟩ := hr.first
  · exact hempty.elim
  cases hrun with
  | diamond ht _ hb =>
    obtain ⟨rfl, -⟩ := List.cons.inj heq
    exact absurd hx hb.not_opensOperand
  | arguments ht _ hb hts =>
    have hname := hl.lastName?_eq ht hf l rfl
    obtain ⟨rfl, htail⟩ := List.cons.inj heq
    rcases (hr.opening (hb.kind_of_opensOperand hx) rfl _ _ rfl).goesOn hts htail with
      ⟨rfl, rfl⟩ | ⟨hlevel, -⟩
    · exact hfollows.comparesLike hname hts htail
    · omega

/-! ## Programs -/

theorem Token.IsLess.not_mem {a : Token} {ts : List Token} (ha : a.IsLess)
    (hts : ∀ t ∈ ts, t.kind ≠ .operator) : a ∉ ts :=
  fun hmem => hts a hmem ha.1

theorem Token.ne_operator_of_isModifier {t : Token} (h : t.isModifier = true) :
    t.kind ≠ .operator := by
  simp only [Token.isModifier, Bool.and_eq_true, Bool.or_eq_true, beq_iff_eq] at h
  rcases h.1 with h | h <;> simp [h]

theorem Token.ne_operator_of_fits {p : Pattern} {t : Token} (h : p.fits t = true)
    (hp : p.kind ≠ .operator) : t.kind ≠ .operator :=
  Reading.kind_of_fits h ▸ hp

open Token (ne_operator_of_fits)

theorem Frame.fits_of_mem_back {params front back : List Token} (h : Frame params front back) :
    ∀ t ∈ back, Pattern.closeBrace.fits t = true := by
  induction h with
  | bare => nofun
  | method _ _ _ _ _ hc => simpa using hc
  | inClass _ _ _ _ _ hc ih =>
    intro t ht
    rcases List.mem_append.mp ht with ht | ht
    · exact ih t ht
    · rw [List.mem_singleton.mp ht]
      exact hc

/-- A sign `<` before the statements is among the parameters, between their brackets. -/
theorem Frame.exists_parens {params front back u v : List Token} {a : Token}
    (h : Frame params front back) (ha : a.IsLess) (hfront : front = u ++ a :: v) :
    ∃ u₁ o u₂ v₁ c v₂, u = u₁ ++ o :: u₂ ∧ v = v₁ ++ c :: v₂ ∧ Pattern.openParen.fits o = true ∧
      Pattern.closeParen.fits c = true ∧ params = u₂ ++ a :: v₁ := by
  induction h generalizing u with
  | bare => simp at hfront
  | @method t n o b o' c params ht hn ho hb ho' hc =>
    have hhead : a ∉ [t, n, o] := by
      apply ha.not_mem
      simp only [List.forall_mem_cons]
      exact ⟨by rcases ht with ht | ht <;> simp [ht], by simp [hn],
        ne_operator_of_fits ho (by decide), nofun⟩
    have htail : a ∉ [b, o'] := by
      apply ha.not_mem
      simp only [List.forall_mem_cons]
      exact ⟨ne_operator_of_fits hb (by decide), ne_operator_of_fits ho' (by decide), nofun⟩
    rcases append_eq_append_cons hfront with ⟨v', hu, rfl⟩ | ⟨u', -, hu'⟩
    · have hcut : [t, n, o] ++ params = u ++ a :: v' := hu
      obtain ⟨u₂, rfl, hparams⟩ := append_eq_append_cons_of_not_mem hcut hhead
      exact ⟨[t, n], o, u₂, v', b, [o'], rfl, rfl, ho, hb, hparams⟩
    · exact absurd (by simp [hu']) htail
  | @inClass k n o c mods params front back hk hn ho hmods hframe hc ih =>
    have hhead : a ∉ k :: n :: o :: mods := by
      apply ha.not_mem
      simp only [List.forall_mem_cons]
      exact ⟨ne_operator_of_fits hk (by decide), by simp [hn], ne_operator_of_fits ho (by decide),
        fun t ht => Token.ne_operator_of_isModifier (hmods t ht)⟩
    obtain ⟨u', rfl, hu'⟩ := append_eq_append_cons_of_not_mem hfront hhead
    obtain ⟨u₁, o', u₂, v₁, c', v₂, rfl, rfl, ho', hc', hparams⟩ := ih hu'
    exact ⟨k :: n :: o :: mods ++ u₁, o', u₂, v₁, c', v₂, by simp, rfl, ho', hc', hparams⟩

namespace Token

theorem ClosesArguments.ne_paren {ns : List String} {ts : List Token}
    (h : ClosesArguments ns ts) : ∀ t ∈ ts, t.kind ≠ .paren := by
  induction h with
  | close ht => simp [ht.1]
  | comma hc ht _ ih =>
    simp only [List.forall_mem_cons]
    exact ⟨by simp [Reading.kind_of_fits hc, Pattern.comma],
      by rcases ht.1 with ht | ht <;> simp [ht], ih⟩
  | brackets ha hb _ ih =>
    simp only [List.forall_mem_cons]
    exact ⟨by simp [Reading.kind_of_fits ha, Pattern.openBracket],
      by simp [Reading.kind_of_fits hb, Pattern.closeBracket], ih⟩

/-- What looks like type arguments has a capitalized word, a sign `<` and no round brackets. -/
theorem LooksGeneric.cases {name : String} {args : List String} {run : List Token}
    (h : LooksGeneric name args run) :
    ∃ t a more, run = t :: a :: more ∧ t.IsCapital ∧ a.IsLess ∧ ∀ u ∈ more, u.kind ≠ .paren := by
  cases h with
  | diamond ht ha hb => exact ⟨_, _, _, rfl, ht, ha, by simp [hb.1]⟩
  | arguments ht ha hu hts =>
    refine ⟨_, _, _, rfl, ht, ha, List.forall_mem_cons.mpr ⟨?_, hts.ne_paren⟩⟩
    rcases hu.1 with hu | hu <;> simp [hu]

end Token

/-- Between round brackets, what looks like type arguments does not go beyond them. -/
theorem within_of_parens {before after u₁ u₂ v₁ v₂ more : List Token} {t a o c : Token}
    (ht : t.IsCapital) (hmore : ∀ u ∈ more, u.kind ≠ .paren)
    (ho : Pattern.openParen.fits o = true) (hc : Pattern.closeParen.fits c = true)
    (hu : before ++ [t] = u₁ ++ o :: u₂) (hv : more ++ after = v₁ ++ c :: v₂) :
    t :: a :: more <:+: u₂ ++ a :: v₁ := by
  obtain ⟨v₃, rfl, -⟩ := append_eq_append_cons_of_not_mem hv
    fun hmem => hmore c hmem (Reading.kind_of_fits hc)
  rcases List.eq_nil_or_concat u₂ with rfl | ⟨u₃, t', rfl⟩
  · obtain ⟨-, heq⟩ := List.append_inj' hu rfl
    cases heq
    exact absurd ho (ht.not_fits (by decide))
  · rw [List.concat_eq_append] at hu ⊢
    rw [← List.cons_append, ← List.append_assoc] at hu
    obtain ⟨-, heq⟩ := List.append_inj' hu rfl
    cases heq
    exact ⟨u₃, v₃, by simp⟩

/-- **Comparisons and generics.**  Where generics are found in the text of a program, its
tokens look like type arguments there.  Either they are parameters of the method, which
reading passes over.  Or they are comparisons: a comparison of a comparison, as in
`A < B > c`, or arguments or elements next to each other, as in `f(A < B, C > d)`, in an
expression of the program or in a dimension that it does not keep. -/
theorem Program.looksGeneric_of_generics {source : String} {tokens : List Token}
    {program : Program} {p : Pos} (htokens : tokenize (Source.normalize source) = .ok tokens)
    (hprogram : ofTokens tokens = .ok program)
    (h : Scope.violation? (Source.normalize source) = some (.generics, p)) :
    ∃ before run after name args, tokens = before ++ run ++ after ∧
      run.head?.map Token.pos = some p ∧ Token.LooksGeneric name args run ∧
      (run <:+: parameters tokens ∨
        ∃ e, (e ∈ program.exprs ∨ Dropped tokens e) ∧ e.ComparesLike name args) := by
  obtain ⟨before, run, after, name, args, hrun, hpos, hlooks⟩ :=
    Token.exists_looksGeneric htokens h
  refine ⟨before, run, after, name, args, hrun, hpos, hlooks, ?_⟩
  obtain ⟨t, a, more, rfl, ht, ha, hmore⟩ := hlooks.cases
  obtain ⟨mods, front, w, back, e, rest, hcut, hmods, hframe, hbody, he⟩ :=
    exists_frame (Token.faithful_of_tokenize htokens) hprogram
  have hsplit : (mods ++ front) ++ (w ++ (back ++ e :: rest)) =
      (before ++ [t]) ++ a :: (more ++ after) := by
    simpa using hcut.symm.trans hrun
  rcases append_eq_append_cons hsplit with ⟨v, hhead, hv⟩ | ⟨u, hu, hbehind⟩
  · -- The sign is before the statements.
    obtain ⟨u, hu, hfront⟩ := append_eq_append_cons_of_not_mem hhead
      (ha.not_mem fun t ht => Token.ne_operator_of_isModifier (hmods t ht))
    obtain ⟨u₁, o, u₂, v₁, c, v₂, rfl, rfl, ho, hc, hparams⟩ := hframe.exists_parens ha hfront
    left
    rw [hparams]
    rw [← List.append_assoc] at hu
    rw [List.append_assoc] at hv
    exact within_of_parens ht hmore ho hc hu hv
  rcases append_eq_append_cons hbehind with ⟨v, rfl, hv⟩ | ⟨u', -, hback⟩
  · -- The sign is in a statement.
    have hlast : ∀ f ∈ u.getLast?, f = t := by
      intro f hf
      have hends := congrArg List.getLast? hu
      rw [List.getLast?_concat, List.getLast?_append, Option.mem_def.mp hf] at hends
      exact (Option.some.inj hends).symm
    have hspot := hbody.spots u a v rfl ha fun f hf => by
      rw [hlast f hf]
      exact ht.ne_final
    obtain ⟨d, hd, hlike⟩ := hspot.comparesLike hlooks hlast hv.symm
    have hinside : u ++ a :: v <:+: tokens := ⟨mods ++ front, back ++ e :: rest, by simp [hcut]⟩
    exact .inr ⟨d, hd.mono (fun _ h => h) hinside, hlike⟩
  · -- Nothing but braces is behind the statements.
    obtain ⟨scanned, hscanned, hnone⟩ := Token.scan_ends htokens
    have hends : Token.EndsOnce tokens := ⟨scanned, _, hscanned, rfl, hnone⟩
    obtain rfl := hends.eq_singleton ⟨mods ++ front ++ w ++ back, hcut.symm⟩ he
    have hnot : a ∉ back ++ [e] := by
      apply ha.not_mem
      simp only [List.forall_mem_append, List.forall_mem_singleton, he]
      exact ⟨fun t ht => ne_operator_of_fits (hframe.fits_of_mem_back t ht) (by decide), by decide⟩
    exact absurd (by simp [hback]) hnot

/-- A method with a generic parameter. -/
def genericParameter : String :=
  "void f(List<A> x) \x7b \x7d"

/-- Its tokens. -/
def genericParameterTokens : List Token :=
  [⟨.keyword, "void", ⟨1, 1⟩⟩, ⟨.identifier, "f", ⟨1, 6⟩⟩, ⟨.paren, "(", ⟨1, 7⟩⟩,
    ⟨.identifier, "List", ⟨1, 8⟩⟩, ⟨.operator, "<", ⟨1, 12⟩⟩, ⟨.identifier, "A", ⟨1, 13⟩⟩,
    ⟨.operator, ">", ⟨1, 14⟩⟩, ⟨.identifier, "x", ⟨1, 16⟩⟩, ⟨.paren, ")", ⟨1, 17⟩⟩,
    ⟨.brace, "\x7b", ⟨1, 19⟩⟩, ⟨.brace, "\x7d", ⟨1, 21⟩⟩, ⟨.eof, "", ⟨1, 22⟩⟩]

theorem tokenize_genericParameter :
    tokenize (Source.normalize genericParameter) = .ok genericParameterTokens :=
  tokenize_of_toOption (by decide +kernel)

/-- Two comparisons as arguments. -/
def comparedArguments : String :=
  "f(A < B, C > D);"

/-- Their tokens. -/
def comparedArgumentsTokens : List Token :=
  [⟨.identifier, "f", ⟨1, 1⟩⟩, ⟨.paren, "(", ⟨1, 2⟩⟩, ⟨.identifier, "A", ⟨1, 3⟩⟩,
    ⟨.operator, "<", ⟨1, 5⟩⟩, ⟨.identifier, "B", ⟨1, 7⟩⟩, ⟨.comma, ",", ⟨1, 8⟩⟩,
    ⟨.identifier, "C", ⟨1, 10⟩⟩, ⟨.operator, ">", ⟨1, 12⟩⟩, ⟨.identifier, "D", ⟨1, 14⟩⟩,
    ⟨.paren, ")", ⟨1, 15⟩⟩, ⟨.semicolon, ";", ⟨1, 16⟩⟩, ⟨.eof, "", ⟨1, 17⟩⟩]

theorem tokenize_comparedArguments :
    tokenize (Source.normalize comparedArguments) = .ok comparedArgumentsTokens :=
  tokenize_of_toOption (by decide +kernel)

theorem violation?_comparedArguments :
    Scope.violation? (Source.normalize comparedArguments) = some (.generics, ⟨1, 3⟩) := by
  decide +kernel

/-- Generics are found in texts of programs, too: among parameters, and among comparisons. -/
theorem generics_in_programs :
    ((∃ program, tokenize (Source.normalize genericParameter) = .ok genericParameterTokens ∧
        Program.ofTokens genericParameterTokens = .ok program) ∧
      Scope.violation? (Source.normalize genericParameter) = some (.generics, ⟨1, 8⟩)) ∧
    (∃ program, tokenize (Source.normalize comparedArguments) = .ok comparedArgumentsTokens ∧
        Program.ofTokens comparedArgumentsTokens = .ok program) ∧
      Scope.violation? (Source.normalize comparedArguments) = some (.generics, ⟨1, 3⟩) :=
  ⟨⟨⟨_, tokenize_genericParameter, rfl⟩, by decide +kernel⟩,
    ⟨_, tokenize_comparedArguments, rfl⟩, violation?_comparedArguments⟩

theorem Program.looksGeneric_comparedArguments :
    ∃ program, ofTokens comparedArgumentsTokens = .ok program ∧
      ∃ name args e, (e ∈ program.exprs ∨ Dropped comparedArgumentsTokens e) ∧
        e.ComparesLike name args := by
  refine ⟨_, rfl, ?_⟩
  obtain ⟨before, run, after, name, args, -, -, hlooks, hparams | ⟨e, he, hlike⟩⟩ :=
    looksGeneric_of_generics tokenize_comparedArguments rfl violation?_comparedArguments
  · have hnone : parameters comparedArgumentsTokens = [] := rfl
    rw [hnone, List.infix_nil] at hparams
    subst hparams
    cases hlooks
  · exact ⟨name, args, e, he, hlike⟩

end Pseudocode
