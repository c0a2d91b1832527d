import Pseudocode.Token.Lexer
import Pseudocode.Proofs.Reader.Tracks
set_option autoImplicit false

/-!
# Cutting a text piece by piece

A piece of text has tokens of its own only as far as the next piece does not run
into it: a word goes on with letters, a minus sign with another one.  `Scans` says
that a piece is cut into the given tokens in front of every text that starts with a
character of a certain class, so that the tokens of a long text are those of its
pieces, one after the other.

The other way round, whatever a text is cut into are lexemes: texts that are cut
into themselves.
-/

namespace Pseudocode

namespace Token

/-- The token of a kind and a text, at no place in particular. -/
def bare (kind : Kind) (text : String) : Token :=
  ⟨kind, text, .start⟩

/-! ## Lexemes -/

/-- The whole text is one token of the kind. -/
def isLexeme (kind : Kind) (text : String) : Bool :=
  match text.toList with
  | [] => false
  | c :: cs =>
    match lexeme c cs with
    | .ok (kind', n) => kind' == kind && n == cs.length
    | .error _ => false

theorem isLexeme_iff {kind : Kind} {text : String} :
    isLexeme kind text = true ↔
      ∃ c cs, text = String.ofList (c :: cs) ∧ lexeme c cs = .ok (kind, cs.length) := by
  unfold isLexeme
  constructor
  · intro h
    cases htext : text.toList with
    | nil => simp [htext] at h
    | cons c cs =>
      refine ⟨c, cs, ?_, ?_⟩
      · rw [← htext, String.ofList_toList]
      · simp only [htext] at h
        cases hlexeme : lexeme c cs with
        | error reason => simp [hlexeme] at h
        | ok r => simpa [hlexeme, Prod.ext_iff] using h
  · intro h
    obtain ⟨c, cs, rfl, hlexeme⟩ := h
    simp [hlexeme]

/-- A character that, behind a text of the kind, would belong to the token, too. -/
def absorbs (kind : Kind) (text : String) (c : Char) : Bool :=
  match kind with
  | .identifier | .keyword => isWordPart c
  | .number => c.isDigit || c == '.'
  | .string => false
  | _ =>
    match text.toList with
    | [d] => pairs.contains (d, c)
    | _ => false

/-- A blank belongs to no token. -/
theorem absorbs_blank (kind : Kind) (text : String) : absorbs kind text ' ' = false := by
  have hpairs : ∀ c, (c, ' ') ∉ pairs := by
    have hall : ∀ entry ∈ pairs, entry.2 ≠ ' ' := by decide
    intro c hc
    exact hall (c, ' ') hc rfl
  unfold absorbs
  split
  case h_5 =>
    split
    · simpa using hpairs _
    · rfl
  all_goals rfl

/-! ## Runs of characters -/

section Runs

variable {α : Type} {q : α → Bool} {xs ys : List α}

/-- A run ends where the next character is of another class. -/
theorem takeWhile_append_eq (hxs : ∀ x ∈ xs, q x = true) (hys : ∀ y ∈ ys.head?, q y = false) :
    (xs ++ ys).takeWhile q = xs := by
  rw [List.takeWhile_append_of_pos hxs]
  cases ys with
  | nil => simp
  | cons y ys => simp [hys y (by simp)]

/-- Every list is a run of characters of a class and what comes behind it. -/
theorem exists_run (q : α → Bool) (xs : List α) :
    ∃ ys zs, xs = ys ++ zs ∧ (∀ y ∈ ys, q y = true) ∧ ∀ z ∈ zs.head?, q z = false := by
  refine ⟨xs.takeWhile q, xs.dropWhile q, List.takeWhile_append_dropWhile.symm, ?_, ?_⟩
  · exact List.all_eq_true.mp List.all_takeWhile
  · intro z hz
    have hnot := List.head?_dropWhile_not q xs
    rw [Option.mem_def.mp hz] at hnot
    simpa using hnot

end Runs

theorem digitCount_append {cs rest : List Char} (hcs : ∀ c ∈ cs, c.isDigit = true)
    (hrest : ∀ c ∈ rest.head?, c.isDigit = false) : digitCount (cs ++ rest) = cs.length := by
  rw [digitCount, takeWhile_append_eq hcs hrest]

/-- Digits, a point and more digits. -/
theorem numberLength_point {cs ds rest : List Char} (hcs : ∀ c ∈ cs, c.isDigit = true)
    (hds : ∀ d ∈ ds, d.isDigit = true) (hrest : ∀ c ∈ rest.head?, c.isDigit = false) :
    numberLength (cs ++ '.' :: ds ++ rest) = (cs ++ '.' :: ds).length := by
  rw [List.append_assoc, List.cons_append]
  unfold numberLength
  rw [digitCount_append hcs (by simp), List.drop_left]
  simp only [digitCount_append hds hrest, List.length_append, List.length_cons]
  omega

/-- Digits without a point. -/
theorem numberLength_digits {cs rest : List Char} (hcs : ∀ c ∈ cs, c.isDigit = true)
    (hrest : ∀ c ∈ rest.head?, c.isDigit = false ∧ c ≠ '.') :
    numberLength (cs ++ rest) = cs.length := by
  unfold numberLength
  rw [digitCount_append hcs fun c hc => (hrest c hc).1, List.drop_left]
  split
  · exact absurd rfl (hrest '.' (by simp)).2
  · rfl

/-- The characters of a number do not depend on what comes behind it, as long as that
does not go on with the number. -/
theorem exists_number (cs : List Char) :
    ∃ number rest, cs = number ++ rest ∧ numberLength cs = number.length ∧
      ∀ rest' : List Char, (∀ c ∈ rest'.head?, c.isDigit = false ∧ c ≠ '.') →
        numberLength (number ++ rest') = number.length := by
  obtain ⟨digits, tail, rfl, hdigits, htail⟩ := exists_run Char.isDigit cs
  by_cases hpoint : tail.head? = some '.'
  · obtain ⟨fraction, rfl⟩ := List.head?_eq_some_iff.mp hpoint
    obtain ⟨more, rest, rfl, hmore, hrest⟩ := exists_run Char.isDigit fraction
    refine ⟨digits ++ '.' :: more, rest, by simp, ?_, ?_⟩
    · rw [← numberLength_point hdigits hmore hrest, List.append_assoc, List.cons_append]
    · intro rest' hrest'
      exact numberLength_point hdigits hmore fun c hc => (hrest' c hc).1
  · refine ⟨digits, tail, rfl, numberLength_digits hdigits ?_, ?_⟩
    · intro c hc
      refine ⟨htail c hc, ?_⟩
      intro h
      exact hpoint (h ▸ hc)
    · intro rest' hrest'
      exact numberLength_digits hdigits hrest'

/-- Any character but a backslash, a line feed and the quote is one of the literal. -/
theorem literalLength?_cons {quote c : Char} (hc : ¬ (c = '\n' ∨ c = '\\')) (cs : List Char) :
    literalLength? quote (c :: cs) =
      if c = quote then some 1 else (literalLength? quote cs).map (· + 1) := by
  rw [literalLength?, if_neg hc]
  intro d ds hbackslash
  exact absurd (Or.inr hbackslash) hc

/-- What comes behind the closing quote does not matter. -/
theorem exists_literal {quote : Char} {cs : List Char} {n : Nat}
    (h : literalLength? quote cs = some n) :
    ∃ body rest, cs = body ++ rest ∧ body.length = n ∧
      ∀ rest' : List Char, literalLength? quote (body ++ rest') = some n := by
  fun_induction literalLength? quote cs generalizing n with
  | case1 => cases h
  | case2 => cases h
  | case3 c cs hc ih =>
    obtain ⟨m, hm, rfl⟩ := Option.map_eq_some_iff.mp h
    obtain ⟨body, rest, rfl, hlen, hbody⟩ := ih hm
    refine ⟨'\\' :: c :: body, rest, rfl, by simp [hlen], ?_⟩
    intro rest'
    simp [literalLength?, hc, hbody]
  | case4 => cases h
  | case5 cs hescape hc =>
    obtain rfl := Option.some.inj h
    refine ⟨[quote], cs, rfl, rfl, ?_⟩
    intro rest'
    rw [List.singleton_append, literalLength?_cons hc, if_pos rfl]
  | case6 c cs hescape hc hquote ih =>
    obtain ⟨m, hm, rfl⟩ := Option.map_eq_some_iff.mp h
    obtain ⟨body, rest, rfl, hlen, hbody⟩ := ih hm
    refine ⟨c :: body, rest, rfl, by simp [hlen], ?_⟩
    intro rest'
    rw [List.cons_append, literalLength?_cons hc, if_neg hquote, hbody]
    rfl

theorem absorbs_wordKind (word : List Char) (text : String) (d : Char) :
    absorbs (wordKind word) text d = isWordPart d := by
  unfold wordKind
  split <;> rfl

/-- A sign is no word, number or literal, and it is not the end. -/
theorem kind_of_sign {c : Char} {kind : Kind} (h : signs.lookup c = some kind) :
    kind ≠ .identifier ∧ kind ≠ .keyword ∧ kind ≠ .number ∧ kind ≠ .string ∧ kind ≠ .eof := by
  have hkinds : ∀ entry ∈ signs, entry.2 ≠ .identifier ∧ entry.2 ≠ .keyword ∧ entry.2 ≠ .number ∧
      entry.2 ≠ .string ∧ entry.2 ≠ .eof := by
    decide
  obtain ⟨before, after, heq, -⟩ := List.lookup_eq_some_iff.mp h
  exact hkinds (c, kind) (by simp [heq])

theorem absorbs_sign {c : Char} {kind : Kind} (h : signs.lookup c = some kind) (d : Char) :
    absorbs kind (String.ofList [c]) d = decide ((c, d) ∈ pairs) := by
  have hkind := kind_of_sign h
  unfold absorbs
  split <;> simp_all

/-- The characters of a token do not depend on what comes behind it, as long as that
does not go on with the token. -/
theorem exists_lexeme {c : Char} {cs : List Char} {kind : Kind} {n : Nat}
    (h : lexeme c cs = .ok (kind, n)) :
    ∃ body rest, cs = body ++ rest ∧ body.length = n ∧
      ∀ rest' : List Char, (∀ d ∈ rest'.head?, absorbs kind (String.ofList (c :: body)) d = false) →
        lexeme c (body ++ rest') = .ok (kind, n) := by
  unfold lexeme at h ⊢
  split at h
  · rename_i hword
    cases h
    obtain ⟨body, rest, rfl, hbody, hrest⟩ := exists_run isWordPart cs
    refine ⟨body, rest, rfl, by rw [takeWhile_append_eq hbody hrest], ?_⟩
    intro rest' hrest'
    rw [if_pos hword, takeWhile_append_eq hbody hrest, takeWhile_append_eq hbody]
    intro d hd
    rw [← hrest' d hd, absorbs_wordKind]
  rename_i hword
  simp only [if_neg hword]
  split at h
  · rename_i hdigit
    cases h
    obtain ⟨number, rest, rfl, hlen, hnumber⟩ := exists_number cs
    refine ⟨number, rest, rfl, hlen.symm, ?_⟩
    intro rest' hrest'
    rw [if_pos hdigit, hlen, hnumber]
    intro d hd
    simpa [absorbs] using hrest' d hd
  rename_i hdigit
  simp only [if_neg hdigit]
  split at h
  · rename_i hquote
    cases hlen : literalLength? c cs with
    | none => simp [hlen] at h
    | some m =>
      simp only [hlen] at h
      cases h
      obtain ⟨body, rest, rfl, hbody, hliteral⟩ := exists_literal hlen
      refine ⟨body, rest, rfl, hbody, ?_⟩
      intro rest' _
      rw [if_pos hquote, hliteral]
  rename_i hquote
  simp only [if_neg hquote]
  split at h
  · rename_i hpair
    cases h
    cases cs with
    | nil => simp at hpair
    | cons d ds =>
      refine ⟨[d], ds, rfl, rfl, ?_⟩
      intro rest' _
      rw [if_pos (by simpa using hpair)]
  · cases hkind : signs.lookup c with
    | none => simp [hkind] at h
    | some kind' =>
      simp only [hkind] at h
      cases h
      refine ⟨[], cs, rfl, rfl, ?_⟩
      intro rest' hrest'
      rw [if_neg]
      simp only [List.nil_append, Option.any_eq_true, not_exists, not_and]
      intro d hd
      rw [← absorbs_sign hkind, hrest' d hd]
      exact Bool.false_ne_true

/-- The characters of a token are a lexeme by themselves. -/
theorem isLexeme_of_lexeme {c : Char} {cs : List Char} {kind : Kind} {n : Nat}
    (h : lexeme c cs = .ok (kind, n)) :
    isLexeme kind (String.ofList (c :: cs.take n)) = true := by
  obtain ⟨body, rest, rfl, rfl, hbody⟩ := exists_lexeme h
  refine isLexeme_iff.mpr ⟨c, body, by simp, ?_⟩
  simpa using hbody [] (by simp)

/-- The characters that a token of the kind may start with. -/
def starts (kind : Kind) (c : Char) : Bool :=
  match kind with
  | .identifier | .keyword => isWordStart c
  | .number => c.isDigit
  | .string => Source.isQuote c
  | .eof => false
  | _ => true

/-- The first character of a token fits its kind. -/
theorem starts_of_lexeme {c : Char} {cs : List Char} {kind : Kind} {n : Nat}
    (h : lexeme c cs = .ok (kind, n)) : starts kind c = true := by
  unfold lexeme at h
  split at h
  · rename_i hword
    cases h
    unfold wordKind
    split <;> exact hword
  split at h
  · rename_i hdigit
    cases h
    exact hdigit
  split at h
  · rename_i hquote
    cases hlen : literalLength? c cs with
    | none => simp [hlen] at h
    | some m =>
      simp only [hlen] at h
      cases h
      exact hquote
  split at h
  · cases h
    rfl
  · cases hkind : signs.lookup c with
    | none => simp [hkind] at h
    | some kind' =>
      simp only [hkind] at h
      cases h
      have hkinds := kind_of_sign hkind
      unfold starts
      split <;> simp_all

theorem isLexeme_head {kind : Kind} {text : String} (h : isLexeme kind text = true) :
    ∃ c ∈ text.toList.head?, starts kind c = true := by
  obtain ⟨c, cs, rfl, hlexeme⟩ := isLexeme_iff.mp h
  exact ⟨c, by simp, starts_of_lexeme hlexeme⟩

/-! ## One step of the scan -/

theorem eq_of_isQuote {c : Char} (h : Source.isQuote c = true) : c = '"' ∨ c = '\'' := by
  simpa [Source.isQuote] using h

theorem eq_of_isSpace {c : Char} (h : isSpace c = true) :
    c = '\n' ∨ c = ' ' ∨ c = '\r' ∨ c = '\x0c' ∨ c = '\t' := by
  simpa [isSpace, or_assoc] using h

/-- What is not white space shows on the page. -/
theorem visible_of_isSpace {c : Char} (h : isSpace c = false) : c ≠ ' ' ∧ c ≠ '\n' := by
  constructor
  · rintro rfl
    cases h
  · rintro rfl
    cases h

/-- No token starts with white space. -/
theorem isSpace_of_lexeme {c : Char} {cs : List Char} {r : Kind × Nat} (h : lexeme c cs = .ok r) :
    isSpace c = false := by
  cases hspace : isSpace c with
  | false => rfl
  | true =>
    rcases eq_of_isSpace hspace with rfl | rfl | rfl | rfl | rfl <;>
      simp [lexeme, isWordStart, Source.isQuote, pairs, signs, List.lookup_cons] at h

theorem scan_space {c : Char} (h : isSpace c = true) (p : Pos) (cs : List Char) :
    scan p (c :: cs) = scan (p.next c) cs := by
  rw [scan, if_pos h]

theorem scan_lexeme {c : Char} {cs : List Char} {kind : Kind} {n : Nat}
    (h : lexeme c cs = .ok (kind, n)) (p : Pos) :
    scan p (c :: cs) =
      (⟨kind, String.ofList (c :: cs.take n), p⟩ :: ·) <$>
        scan (p.after (c :: cs.take n)) (cs.drop n) := by
  have hspace := isSpace_of_lexeme h
  rw [scan, if_neg (by simp [hspace]), h]
  dsimp only
  cases scan (p.after (c :: cs.take n)) (cs.drop n) <;> rfl

theorem scan_nil (p : Pos) : scan p [] = .ok [eof p] := by
  rw [scan]

theorem scan_token {p : Pos} {c : Char} {cs : List Char} {ts : List Token} {kind : Kind} {n : Nat}
    (hlexeme : lexeme c cs = .ok (kind, n))
    (h : scan (p.after (c :: cs.take n)) (cs.drop n) = .ok ts) :
    scan p (c :: cs) = .ok (⟨kind, String.ofList (c :: cs.take n), p⟩ :: ts) := by
  rw [scan_lexeme hlexeme, h]
  rfl

/-- Induction along a text that can be cut: it ends, or it goes on behind white space or behind a
token. -/
@[elab_as_elim]
theorem scan_induction
    {motive : (p : Pos) → (cs : List Char) → (ts : List Token) → scan p cs = .ok ts → Prop}
    (ends : ∀ p, motive p [] [eof p] (scan_nil p))
    (space : ∀ p c cs ts (hspace : isSpace c = true) (h : scan (p.next c) cs = .ok ts),
      motive (p.next c) cs ts h → motive p (c :: cs) ts ((scan_space hspace p cs).trans h))
    (token : ∀ p c cs ts kind n (hlexeme : lexeme c cs = .ok (kind, n))
      (h : scan (p.after (c :: cs.take n)) (cs.drop n) = .ok ts),
      motive (p.after (c :: cs.take n)) (cs.drop n) ts h →
        motive p (c :: cs) (⟨kind, String.ofList (c :: cs.take n), p⟩ :: ts)
          (scan_token hlexeme h))
    {p : Pos} {cs : List Char} {ts : List Token} (h : scan p cs = .ok ts) : motive p cs ts h := by
  induction p, cs using scan.induct generalizing ts with
  | case1 p =>
    obtain rfl := Except.ok.inj ((scan_nil p).symm.trans h)
    exact ends p
  | case2 p c cs hspace ih =>
    exact space p c cs ts hspace _ (ih ((scan_space hspace p cs).symm.trans h))
  | case3 p c cs hspace reason hlexeme =>
    rw [scan, if_neg hspace, hlexeme] at h
    cases h
  | case4 p c cs _ kind n hlexeme e herror =>
    rw [scan_lexeme hlexeme, herror] at h
    cases h
  | case5 p c cs _ kind n hlexeme tokens htokens ih =>
    obtain rfl := Except.ok.inj ((scan_token hlexeme htokens).symm.trans h)
    exact token p c cs tokens kind n hlexeme htokens (ih htokens)

/-! ## Tokens of a piece of text -/

/-- In front of a text that is empty or starts with a character of the class, the
characters are cut into the tokens, and the cut goes on behind them. -/
def Scans (stops : Char → Bool) (cs : List Char) (ts : List Token) : Prop :=
  ∀ (p : Pos) (rest : List Char), (∀ c ∈ rest.head?, stops c = true) →
    ∃ us, unplaced us = ts ∧ scan p (cs ++ rest) = (us ++ ·) <$> scan (p.after cs) rest

namespace Scans

variable {stops stops' : Char → Bool} {cs ds : List Char} {ts us : List Token}

theorem nil : Scans stops [] [] := by
  intro p rest _
  refine ⟨[], rfl, ?_⟩
  simp

theorem mono (h : Scans stops cs ts) (hstops : ∀ c, stops' c = true → stops c = true) :
    Scans stops' cs ts :=
  fun p rest hrest => h p rest fun c hc => hstops c (hrest c hc)

/-- A blank has no tokens. -/
theorem space {c : Char} (h : isSpace c = true) : Scans stops [c] [] := by
  intro p rest _
  refine ⟨[], rfl, ?_⟩
  rw [List.singleton_append, scan_space h]
  simp

/-- A lexeme is one token. -/
theorem lexeme {kind : Kind} {text : String} (h : isLexeme kind text = true)
    (hstops : ∀ c, stops c = true → absorbs kind text c = false) :
    Scans stops text.toList [bare kind text] := by
  obtain ⟨c, cs, rfl, hlexeme⟩ := isLexeme_iff.mp h
  obtain ⟨body, tail, hcs, hlen, hbody⟩ := exists_lexeme hlexeme
  obtain rfl : tail = [] := by
    have := congrArg List.length hcs
    simpa [hlen] using this
  rw [List.append_nil] at hcs
  subst hcs
  intro p rest hrest
  refine ⟨[⟨kind, String.ofList (c :: cs), p⟩], rfl, ?_⟩
  have hlong := hbody rest fun d hd => hstops d (hrest d hd)
  rw [String.toList_ofList, List.cons_append, scan_lexeme hlong]
  simp

/-- A lexeme before a blank is one token. -/
theorem lexeme_blank {kind : Kind} {text : String} (h : isLexeme kind text = true) :
    Scans (· == ' ') text.toList [bare kind text] := by
  refine lexeme h ?_
  intro c hc
  rw [beq_iff_eq.mp hc]
  exact absorbs_blank kind text

/-- Two pieces, of which the second one does not run into the first. -/
theorem append (h : Scans stops cs ts) (h' : Scans stops' ds us)
    (hd : ∀ d, d ∈ ds.head? ∨ ds = [] ∧ stops' d = true → stops d = true) :
    Scans stops' (cs ++ ds) (ts ++ us) := by
  intro p rest hrest
  have hhead : ∀ d ∈ (ds ++ rest).head?, stops d = true := by
    intro d hmem
    cases ds with
    | nil => exact hd d (.inr ⟨rfl, hrest d hmem⟩)
    | cons c ds => exact hd d (.inl hmem)
  obtain ⟨vs, rfl, hvs⟩ := h p (ds ++ rest) hhead
  obtain ⟨ws, rfl, hws⟩ := h' (p.after cs) rest hrest
  refine ⟨vs ++ ws, by simp, ?_⟩
  rw [List.append_assoc, hvs, hws, Pos.after_append]
  simp [List.append_assoc]

/-- Anything may stand behind a piece that no character runs into. -/
theorem then_append (h : Scans (fun _ => true) cs ts) (h' : Scans stops ds us) :
    Scans stops (cs ++ ds) (ts ++ us) :=
  h.append h' fun _ _ => rfl

/-- Two pieces with a blank between them. -/
theorem spaced (h : Scans stops cs ts) (hstop : stops ' ' = true) (h' : Scans stops' ds us) :
    Scans stops' (cs ++ ' ' :: ds) (ts ++ us) := by
  have hblank : Scans (fun _ => true) [' '] [] := space rfl
  refine h.append (hblank.then_append h') ?_
  intro d hd
  rcases hd with hd | ⟨hnil, -⟩
  · obtain rfl := Option.some.inj hd
    exact hstop
  · cases hnil

/-- The tokens of a text that is one piece. -/
theorem tokenize_eq {text : String} (h : Scans stops text.toList ts) :
    ∃ us, tokenize text = .ok us ∧ unplaced us = ts ++ [bare .eof ""] := by
  obtain ⟨us, rfl, hus⟩ := h .start [] (by simp)
  rw [List.append_nil] at hus
  refine ⟨us ++ [eof (Pos.start.after text.toList)], ?_, by simp; rfl⟩
  rw [Pseudocode.tokenize, hus, scan]
  rfl

end Scans

end Token

/-! ## Texts of tokens -/

/-- Tokens as they are cut from a text: the end has no text, all others are lexemes. -/
def Vocabulary.lexical : Vocabulary := fun kind text =>
  (kind = .eof ∧ text = "") ∨ Token.isLexeme kind text = true

theorem Vocabulary.isLexeme_of_lexical {kind : Kind} {text : String} (h : lexical kind text)
    (hkind : kind ≠ .eof) : Token.isLexeme kind text = true := by
  rcases h with ⟨heof, -⟩ | h
  · exact absurd heof hkind
  · exact h

namespace Token

theorem scan_admits {p : Pos} {cs : List Char} {ts : List Token} (h : scan p cs = .ok ts) :
    Vocabulary.lexical.Admits ts := by
  induction h using scan_induction with
  | ends p =>
    intro t ht
    obtain rfl := List.mem_singleton.mp ht
    exact .inl ⟨rfl, rfl⟩
  | space p c cs ts hspace h ih => exact ih
  | token p c cs ts kind n hlexeme h ih =>
    intro t ht
    rcases List.mem_cons.mp ht with rfl | ht
    · exact .inr (isLexeme_of_lexeme hlexeme)
    · exact ih t ht

theorem scan_closed {p : Pos} {cs : List Char} {ts : List Token} (h : scan p cs = .ok ts) :
    Closed ts := by
  induction h using scan_induction with
  | ends p => exact ⟨eof p, rfl, rfl⟩
  | space p c cs ts hspace h ih => exact ih
  | token p c cs ts kind n hlexeme h ih =>
    obtain ⟨last, hlast, heof⟩ := ih
    exact ⟨last, by simp [List.getLast?_cons, Option.mem_def.mp hlast], heof⟩

end Token

end Pseudocode
