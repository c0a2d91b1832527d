import Pseudocode.Proofs.Scope
import Pseudocode.Proofs.Token.Grammar
set_option autoImplicit false

/-!
# The words of a text and its tokens

The scope of a text is judged by the words and signs of its masked form, before the text is
cut into tokens.  `Shown` compares the two for a text that can be cut.  A token is shown by
its characters, and a literal by its quotes.  Only numbers are in the way: a word directly
behind a number is a part of a longer word of the text, as in `1try`, and it is no word of
its own.
-/

namespace Pseudocode

open Scope (Piece pieces)
open Text (isBlank isWordChar)

namespace Token

/-! ## Classes of characters -/

theorem isWordChar_of_isWordPart {c : Char} (h : isWordPart c = true) : isWordChar c = true := by
  simp only [isWordPart, isWordStart, Bool.or_eq_true, beq_iff_eq] at h
  simp only [isWordChar, Bool.or_eq_true, beq_iff_eq]
  rcases h with (halpha | hscore) | hdigit
  · exact .inr (Text.isAlphanumeric_of_isAlphanum (by simp [Char.isAlphanum, halpha]))
  · exact .inl hscore
  · exact .inr (Text.isAlphanumeric_of_isAlphanum (by simp [Char.isAlphanum, hdigit]))

theorem isBlank_of_isSpace {c : Char} (h : isSpace c = true) :
    isWordChar c = false ∧ isBlank c = true := by
  rcases eq_of_isSpace h with rfl | rfl | rfl | rfl | rfl <;> decide

theorem sign_of_isQuote {c : Char} (h : Source.isQuote c = true) :
    isWordChar c = false ∧ isBlank c = false := by
  rcases eq_of_isQuote h with rfl | rfl <;> decide

theorem sign_of_mem_marks {c : Char} (h : c ∈ marks) :
    isWordChar c = false ∧ isBlank c = false := by
  have hall : marks.all (fun c => !isWordChar c && !isBlank c) = true := by decide
  simpa using List.all_eq_true.mp hall c h

end Token

/-! ## Pieces of a run of characters -/

namespace Scope

variable {inWord : Bool} {p : Pos} {c : Char} {cs word : List Char}

theorem pieces_blank (hc : isWordChar c = false ∧ isBlank c = true) :
    pieces inWord p (c :: cs) = pieces false (p.next c) cs := by
  simp [pieces, hc.1, hc.2]

theorem pieces_sign (hc : isWordChar c = false ∧ isBlank c = false) :
    pieces inWord p (c :: cs) = .sign c :: pieces false (p.next c) cs := by
  simp [pieces, hc.1, hc.2]

/-- Inside a word nothing new is found. -/
theorem pieces_inWord (hword : ∀ d ∈ word, isWordChar d = true) :
    pieces true p (word ++ cs) = pieces true (p.after word) cs := by
  induction word generalizing p with
  | nil => rfl
  | cons d word ih =>
    obtain ⟨hd, hword⟩ := List.forall_mem_cons.mp hword
    rw [List.cons_append, pieces]
    simp only [hd, if_true]
    exact ih hword

/-- At the end of a word it does not matter that there was one. -/
theorem pieces_ended (hcs : ∀ d ∈ cs.head?, isWordChar d = false) :
    pieces true p cs = pieces false p cs := by
  cases cs with
  | nil => rfl
  | cons d cs => simp [pieces, hcs d rfl]

/-- A word with something else behind it. -/
theorem pieces_word (hc : isWordChar c = true) (hword : ∀ d ∈ word, isWordChar d = true)
    (hcs : ∀ d ∈ cs.head?, isWordChar d = false) :
    pieces false p (c :: word ++ cs) =
      .word p (c :: word) :: pieces false (p.after (c :: word)) cs := by
  have hrun : (c :: word ++ cs).takeWhile isWordChar = c :: word :=
    Token.takeWhile_append_eq (List.forall_mem_cons.mpr ⟨hc, hword⟩) hcs
  rw [List.cons_append] at hrun ⊢
  rw [pieces, hrun]
  simp only [hc, if_true, Bool.false_eq_true, if_false]
  rw [pieces_inWord hword, pieces_ended hcs]
  rfl

theorem pieces_marks {marks : List Char} (hmarks : ∀ d ∈ c :: marks, d ∈ Token.marks) :
    pieces inWord p (c :: marks ++ cs) =
      (c :: marks).map .sign ++ pieces false (p.after (c :: marks)) cs := by
  induction marks generalizing inWord p c with
  | nil =>
    rw [List.singleton_append, pieces_sign (Token.sign_of_mem_marks (hmarks c (by simp)))]
    rfl
  | cons d marks ih =>
    obtain ⟨hc, hmarks⟩ := List.forall_mem_cons.mp hmarks
    rw [List.cons_append, pieces_sign (Token.sign_of_mem_marks hc), ih hmarks]
    rfl

/-- What a number shows as: words that start with a digit, and points. -/
def Piece.IsNumeric (piece : Piece) : Prop :=
  piece = .sign '.' ∨ ∃ q c cs, piece = .word q (c :: cs) ∧ c.isDigit = true

theorem exists_pieces_number {number : List Char}
    (hnumber : ∀ d ∈ number, d.isDigit = true ∨ d = '.') :
    ∃ numeric inWord', pieces inWord p (number ++ cs) =
        numeric ++ pieces inWord' (p.after number) cs ∧
      (∀ piece ∈ numeric, piece.IsNumeric) ∧
      (inWord = false → number ≠ [] → numeric ≠ []) := by
  induction number generalizing inWord p with
  | nil => exact ⟨[], inWord, rfl, by simp, by simp⟩
  | cons d number ih =>
    obtain ⟨hd, hnumber⟩ := List.forall_mem_cons.mp hnumber
    obtain ⟨numeric, inWord', hpieces, hnumeric, -⟩ :=
      @ih (isWordChar d) (p.next d) hnumber
    rcases hd with hd | rfl
    · have hword : isWordChar d = true :=
        Token.isWordChar_of_isWordPart (by simp [Token.isWordPart, hd])
      rw [List.cons_append, pieces]
      simp only [hword, if_true] at hpieces ⊢
      rw [hpieces]
      cases inWord with
      | true => exact ⟨numeric, inWord', rfl, hnumeric, by simp⟩
      | false =>
        rw [List.takeWhile_cons_of_pos hword]
        refine ⟨.word p (d :: (number ++ cs).takeWhile isWordChar) :: numeric, inWord', rfl, ?_,
          fun _ _ => List.cons_ne_nil _ _⟩
        exact List.forall_mem_cons.mpr ⟨.inr ⟨_, _, _, rfl, hd⟩, hnumeric⟩
    · have hpoint : isWordChar '.' = false ∧ isBlank '.' = false := by decide
      rw [hpoint.1] at hpieces
      rw [List.cons_append, pieces_sign hpoint, hpieces]
      exact ⟨.sign '.' :: numeric, inWord', rfl, List.forall_mem_cons.mpr ⟨.inl rfl, hnumeric⟩,
        fun _ _ => List.cons_ne_nil _ _⟩

/-- A masked literal shows by its quotes. -/
theorem pieces_literal {q : Char} (hq : Source.isQuote q = true) (n : Nat) :
    pieces inWord p (q :: List.replicate n ' ' ++ q :: cs) =
      .sign q :: .sign q :: pieces false (p.after (q :: List.replicate n ' ' ++ [q])) cs := by
  have hsign := Token.sign_of_isQuote hq
  have hblanks : ∀ n p, pieces false p (List.replicate n ' ' ++ q :: cs) =
      .sign q :: pieces false (p.after (List.replicate n ' ' ++ [q])) cs := by
    intro n
    induction n with
    | zero => exact fun p => pieces_sign hsign
    | succ n ih =>
      intro p
      rw [List.replicate_succ, List.cons_append, pieces_blank (by decide), ih]
      rfl
  rw [List.cons_append, pieces_sign hsign, hblanks]
  rfl

end Scope

/-! ## Tokens and pieces -/

namespace Token

/-- An identifier or a keyword. -/
def IsWord (t : Token) : Prop :=
  t.kind = .identifier ∨ t.kind = .keyword

/-- The tokens of a text and the pieces that they show as in its masked form.  If `glued`, a
number may stand directly before the text. -/
inductive Shown : (glued : Bool) → List Token → List Piece → Prop where
  | eof {glued : Bool} {p : Pos} : Shown glued [eof p] []
  | word {glued : Bool} {t : Token} {ts : List Token} {ps : List Piece} (ht : t.IsWord)
      (hts : Shown false ts ps) : Shown glued (t :: ts) (.word t.pos t.text.toList :: ps)
  | gluedWord {t : Token} {ts : List Token} {ps : List Piece} (ht : t.IsWord)
      (hts : Shown false ts ps) : Shown true (t :: ts) ps
  | number {glued glued' : Bool} {t : Token} {ts : List Token} {numeric ps : List Piece}
      (ht : t.kind = .number) (hnumeric : ∀ piece ∈ numeric, piece.IsNumeric)
      (hne : glued = false → numeric ≠ []) (hts : Shown glued' ts ps) :
      Shown glued (t :: ts) (numeric ++ ps)
  | literal {glued : Bool} {t : Token} {q : Char} {ts : List Token} {ps : List Piece}
      (ht : t.kind = .string) (hq : Source.isQuote q = true) (hts : Shown false ts ps) :
      Shown glued (t :: ts) (.sign q :: .sign q :: ps)
  | marks {glued : Bool} {t : Token} {ts : List Token} {ps : List Piece}
      (ht : isLexeme t.kind t.text = true) (hmarks : ∀ c ∈ t.text.toList, c ∈ marks)
      (hts : Shown false ts ps) : Shown glued (t :: ts) (t.text.toList.map .sign ++ ps)

/-- White space keeps a word apart from what was before. -/
theorem Shown.glue {ts : List Token} {ps : List Piece} (h : Shown false ts ps) (glued : Bool) :
    Shown glued ts ps := by
  cases h with
  | eof => exact .eof
  | word ht hts => exact .word ht hts
  | number ht hnumeric hne hts => exact .number ht hnumeric (fun _ => hne rfl) hts
  | literal ht hq hts => exact .literal ht hq hts
  | marks ht hmarks hts => exact .marks ht hmarks hts

theorem head?_maskChars (cs : List Char) : (Source.maskChars none cs).head? = cs.head? := by
  cases cs with
  | nil => rfl
  | cons c cs => rfl

/-- What is behind a word of the text is no character of a word. -/
theorem isWordChar_of_scan {p : Pos} {cs : List Char} {ts : List Token} (h : scan p cs = .ok ts)
    (hcs : ∀ d ∈ cs.head?, isWordPart d = false) : ∀ d ∈ cs.head?, isWordChar d = false := by
  intro d hd
  obtain ⟨ds, rfl⟩ := List.head?_eq_some_iff.mp hd
  have hpart := hcs d hd
  have hstart : isWordStart d = false ∧ d.isDigit = false := by
    simpa [isWordPart] using hpart
  by_cases hspace : isSpace d = true
  · exact (isBlank_of_isSpace hspace).1
  · rw [scan, if_neg hspace] at h
    cases hlexeme : lexeme d ds with
    | error reason => simp [hlexeme] at h
    | ok r =>
      obtain ⟨kind, n⟩ := r
      obtain ⟨body, rest, -, -, hshape⟩ := exists_of_lexeme hlexeme
      cases hshape with
      | word hc => simp [hstart.1] at hc
      | number hc => simp [hstart.2] at hc
      | literal hc => exact (sign_of_isQuote hc).1
      | double e _ hpair => exact (sign_of_mem_marks (mem_marks_of_pair hpair).1).1
      | single _ hsign => exact (sign_of_mem_marks (mem_marks_of_sign hsign)).1

theorem isWord_wordKind (word : List Char) (text : String) (p : Pos) :
    IsWord ⟨wordKind word, text, p⟩ := by
  unfold IsWord wordKind
  split
  · exact .inr rfl
  · exact .inl rfl

theorem LiteralBody.ne_feed {quote : Char} {body : List Char} (h : LiteralBody quote body)
    {c : Char} (hc : c ∈ body) : c ≠ '\n' := by
  induction h with
  | nil => cases hc
  | plain hfeed _ _ _ ih =>
    rcases List.mem_cons.mp hc with rfl | hc
    · exact hfeed
    · exact ih hc
  | escaped hfeed _ ih =>
    rcases List.mem_cons.mp hc with rfl | hc
    · decide
    · rcases List.mem_cons.mp hc with rfl | hc
      · exact hfeed
      · exact ih hc

/-- One token more. -/
theorem Shown.step {c : Char} {body rest : List Char} {kind : Kind} {p : Pos} {ts : List Token}
    (hlexeme : lexeme c (body ++ rest) = .ok (kind, body.length))
    (hshape : Lexeme c body rest kind) (hscan : scan (p.after (c :: body)) rest = .ok ts)
    (hrest : ∀ glued, Shown glued ts
      (pieces glued (p.after (c :: body)) (Source.maskChars none rest))) (glued : Bool) :
    Shown glued (⟨kind, String.ofList (c :: body), p⟩ :: ts)
      (pieces glued p (Source.maskChars none (c :: (body ++ rest)))) := by
  have hmask : kind ≠ .string → Source.maskChars none (c :: (body ++ rest)) =
      c :: body ++ Source.maskChars none rest := by
    intro hkind
    have hplain := isQuote_of_lexeme hlexeme hkind
    rw [List.take_left] at hplain
    exact Source.maskChars_append hplain rest
  have htext : isLexeme kind (String.ofList (c :: body)) = true := by
    simpa using isLexeme_of_lexeme hlexeme
  have hmarks : kind ≠ .string → (∀ d ∈ c :: body, d ∈ Token.marks) →
      Shown glued (⟨kind, String.ofList (c :: body), p⟩ :: ts)
        (pieces glued p (Source.maskChars none (c :: (body ++ rest)))) := by
    intro hkind hall
    have hshown : Shown glued (⟨kind, String.ofList (c :: body), p⟩ :: ts)
        ((String.ofList (c :: body)).toList.map .sign ++ _) :=
      .marks htext (by simpa using hall) (hrest false)
    rwa [String.toList_ofList, ← Scope.pieces_marks hall, ← hmask hkind] at hshown
  cases hshape with
  | word hc hbody hends =>
    have hchar : isWordChar c = true := isWordChar_of_isWordPart (by simp [isWordPart, hc])
    have hchars : ∀ d ∈ body, isWordChar d = true :=
      fun d hd => isWordChar_of_isWordPart (hbody d hd)
    have hends' : ∀ d ∈ (Source.maskChars none rest).head?, isWordChar d = false := by
      rw [head?_maskChars]
      exact isWordChar_of_scan hscan hends
    have hword := isWord_wordKind (c :: body) (String.ofList (c :: body)) p
    rw [hmask (by rcases hword with h | h <;> simp_all)]
    cases glued with
    | false =>
      rw [Scope.pieces_word hchar hchars hends']
      have hshown : Shown false _ _ := .word hword (hrest false)
      simpa using hshown
    | true =>
      rw [Scope.pieces_inWord (List.forall_mem_cons.mpr ⟨hchar, hchars⟩), Scope.pieces_ended hends']
      exact .gluedWord hword (hrest false)
  | number hc hbody =>
    have hnumber : ∀ d ∈ c :: body, d.isDigit = true ∨ d = '.' := by
      refine List.forall_mem_cons.mpr ⟨.inl hc, ?_⟩
      obtain hdigits | ⟨digits, more, rfl, hdigits, hmore⟩ := hbody
      · exact fun d hd => .inl (hdigits d hd)
      · intro d hd
        rcases List.mem_append.mp hd with hd | hd
        · exact .inl (hdigits d hd)
        · exact (List.mem_cons.mp hd).elim .inr fun hd => .inl (hmore d hd)
    obtain ⟨numeric, inWord, hpieces, hnumeric, hne⟩ :=
      @Scope.exists_pieces_number glued p (Source.maskChars none rest) _ hnumber
    rw [hmask (by decide), hpieces]
    exact .number rfl hnumeric (fun hglued => hne hglued (List.cons_ne_nil _ _)) (hrest inWord)
  | literal hc inner hbody hinner =>
    obtain ⟨-, hlength⟩ := literalLength?_of_lexeme hlexeme
    obtain ⟨inner', rest', hcut, hlength', -, hclosed⟩ := Source.exists_closed hlength
    subst hbody
    rw [List.append_assoc, List.singleton_append] at hcut hclosed
    obtain ⟨rfl, htail⟩ := List.append_inj hcut (by simpa using hlength')
    obtain ⟨-, rfl⟩ := List.cons.inj htail
    have hopen : Source.maskChars none (c :: (inner ++ c :: rest)) =
        c :: List.replicate inner.length ' ' ++ c :: Source.maskChars none rest := by
      rw [Source.maskChars, if_pos hc, hclosed]
      rfl
    have hfeed : c ≠ '\n' := by
      rintro rfl
      cases hc
    have hafter : ∀ ds : List Char, (∀ d ∈ ds, d ≠ '\n') →
        p.after (c :: ds ++ [c]) = ⟨p.line, p.column + (ds.length + 2)⟩ := by
      intro ds hds
      rw [Pos.after_of_no_newline, List.length_append, List.length_cons, List.length_singleton]
      intro d hd
      rcases List.mem_append.mp hd with hd | hd
      · exact (List.mem_cons.mp hd).elim (fun hd => hd ▸ hfeed) (hds d)
      · exact List.mem_singleton.mp hd ▸ hfeed
    -- Blanking the literal moves nothing, since it has no line feed.
    have hpos : p.after (c :: inner ++ [c]) =
        p.after (c :: List.replicate inner.length ' ' ++ [c]) := by
      rw [hafter inner fun d hd => hinner.ne_feed hd, hafter, List.length_replicate]
      intro d hd
      rw [(List.mem_replicate.mp hd).2]
      decide
    rw [List.append_assoc, List.singleton_append, hopen, Scope.pieces_literal hc, ← hpos]
    exact .literal rfl hc (hrest false)
  | double d hbody hpair =>
    refine hmarks (by decide) ?_
    subst hbody
    simpa using mem_marks_of_pair hpair
  | single hbody hsign =>
    refine hmarks (kind_of_sign hsign).2.2.2.1 ?_
    subst hbody
    simpa using mem_marks_of_sign hsign

/-- **Words and tokens.**  The pieces of a text that can be cut are those that its tokens
show as. -/
theorem shown_of_scan {p : Pos} {cs : List Char} {ts : List Token} (h : scan p cs = .ok ts)
    (glued : Bool) : Shown glued ts (pieces glued p (Source.maskChars none cs)) := by
  induction h using scan_induction generalizing glued with
  | ends p => exact .eof
  | space p c cs ts hspace h ih =>
    have hmask : Source.maskChars none (c :: cs) = c :: Source.maskChars none cs := by
      rw [Source.maskChars, isQuote_of_isSpace hspace]
      rfl
    rw [hmask, Scope.pieces_blank (isBlank_of_isSpace hspace)]
    exact (ih false).glue glued
  | token p c cs ts kind n hlexeme h ih =>
    obtain ⟨body, rest, rfl, rfl, hshape⟩ := exists_of_lexeme hlexeme
    rw [List.take_left] at ih h ⊢
    rw [List.drop_left] at ih h
    exact .step hlexeme hshape h ih glued

theorem shown_of_tokenize {text : String} {ts : List Token} (h : tokenize text = .ok ts) :
    Shown false ts (Scope.codePieces text) := by
  have hshown := shown_of_scan h false
  rwa [← String.toList_ofList (l := Source.maskChars none text.toList)] at hshown

theorem not_isWord_of_marks {t : Token} (h : isLexeme t.kind t.text = true)
    (hmarks : ∀ c ∈ t.text.toList, c ∈ marks) : ¬ t.IsWord := by
  obtain ⟨c, hc, hstarts⟩ := isLexeme_head h
  have hmark := not_part_of_mark (hmarks c (List.mem_of_head? hc))
  rintro (ht | ht) <;> simp [starts, ht, hmark.2.1] at hstarts

/-- A word that does not stand behind a number is a word of the text. -/
theorem Shown.mem_of_isWord {glued : Bool} {ts front back : List Token} {t : Token}
    {ps : List Piece} (h : Shown glued ts ps) (hts : ts = front ++ t :: back) (ht : t.IsWord)
    (hglued : front = [] → glued = false) (hfront : ∀ u ∈ front.getLast?, u.kind ≠ .number) :
    .word t.pos t.text.toList ∈ ps := by
  have hlast : ∀ {u : Token} {front : List Token},
      (∀ v ∈ (u :: front).getLast?, v.kind ≠ .number) → ∀ v ∈ front.getLast?, v.kind ≠ .number := by
    intro u front h v hv
    exact h v (by rw [List.getLast?_cons, Option.mem_def.mp hv]; rfl)
  induction h generalizing front with
  | eof =>
    cases front with
    | nil =>
      cases hts
      rcases ht with ht | ht <;> cases ht
    | cons => simp at hts
  | word _ _ ih =>
    cases front with
    | nil =>
      cases hts
      exact List.mem_cons_self
    | cons u front =>
      obtain ⟨-, hts⟩ := List.cons.inj hts
      exact List.mem_cons_of_mem _ (ih hts (fun _ => rfl) (hlast hfront))
  | gluedWord _ _ ih =>
    cases front with
    | nil => cases hglued rfl
    | cons u front =>
      obtain ⟨-, hts⟩ := List.cons.inj hts
      exact ih hts (fun _ => rfl) (hlast hfront)
  | number hkind _ _ _ ih =>
    cases front with
    | nil =>
      cases hts
      rcases ht with ht | ht <;> simp [hkind] at ht
    | cons u front =>
      obtain ⟨rfl, hrest⟩ := List.cons.inj hts
      refine List.mem_append_right _ (ih hrest ?_ (hlast hfront))
      rintro rfl
      exact absurd hkind (hfront _ rfl)
  | literal hkind _ _ ih =>
    cases front with
    | nil =>
      cases hts
      rcases ht with ht | ht <;> simp [hkind] at ht
    | cons u front =>
      obtain ⟨-, hts⟩ := List.cons.inj hts
      exact List.mem_cons_of_mem _ (List.mem_cons_of_mem _ (ih hts (fun _ => rfl) (hlast hfront)))
  | marks hlexeme hmarks _ ih =>
    cases front with
    | nil =>
      cases hts
      exact absurd ht (not_isWord_of_marks hlexeme hmarks)
    | cons u front =>
      obtain ⟨-, hts⟩ := List.cons.inj hts
      exact List.mem_append_right _ (ih hts (fun _ => rfl) (hlast hfront))

end Token

end Pseudocode
