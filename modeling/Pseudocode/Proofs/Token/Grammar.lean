import Pseudocode.Proofs.Token.Coverage
import Pseudocode.Proofs.Token.Literals
set_option autoImplicit false

/-!
# The lexical grammar

Which texts can be cut into tokens is said here without a scan: a text can be cut if it is
a row of pieces, each of which is white space or a token by itself.  A text has many such
rows, and the scan tries only one, with the longest piece at each place.  That is enough:
what the longest piece takes away from the next one can be spared (`Cut.tail`), so that a
row remains for what is left (`Cut.exists_lexeme`).

Where a text cannot be cut, the scan has cut everything before that place.
-/

namespace Pseudocode

namespace Token

/-! ## Pieces of a text -/

/-- The operators of two characters. -/
def doubleOperators : List String :=
  ["==", "!=", "<=", ">=", "&&", "||", "++", "--", "+=", "-=", "*=", "/=", "%="]

/-- The operators and signs of one character. -/
def singleOperators : List String :=
  ["+", "-", "*", "/", "%", "<", ">", "=", "!", "(", ")", "\x7b", "\x7d", "[", "]", ".", ";", ","]

/-- What may stand between two quotes: no line feed, and no quote of the same sort but behind
a backslash, which takes the next character with it. -/
inductive LiteralBody (quote : Char) : List Char → Prop where
  | nil : LiteralBody quote []
  | plain {c : Char} {cs : List Char} (hfeed : c ≠ '\n') (hescape : c ≠ '\\') (hquote : c ≠ quote)
      (hbody : LiteralBody quote cs) : LiteralBody quote (c :: cs)
  | escaped {c : Char} {cs : List Char} (hfeed : c ≠ '\n') (hbody : LiteralBody quote cs) :
      LiteralBody quote ('\\' :: c :: cs)

/-- A piece of a text: a character of white space, an identifier, a number, a literal, or an
operator. -/
inductive IsPiece : List Char → Prop where
  | space {c : Char} (hc : c ∈ ['\n', ' ', '\r', '\x0c', '\t']) : IsPiece [c]
  | identifier {c : Char} {cs : List Char} (hc : isWordStart c = true)
      (hcs : ∀ d ∈ cs, isWordPart d = true) : IsPiece (c :: cs)
  | integer {c : Char} {cs : List Char} (hc : c.isDigit = true)
      (hcs : ∀ d ∈ cs, d.isDigit = true) : IsPiece (c :: cs)
  | decimal {c : Char} {cs ds : List Char} (hc : c.isDigit = true)
      (hcs : ∀ d ∈ cs, d.isDigit = true) (hds : ∀ d ∈ ds, d.isDigit = true) :
      IsPiece (c :: cs ++ '.' :: ds)
  | literal {quote : Char} {body : List Char} (hquote : quote = '"' ∨ quote = '\'')
      (hbody : LiteralBody quote body) : IsPiece (quote :: body ++ [quote])
  | double {op : String} (hop : op ∈ doubleOperators) : IsPiece op.toList
  | single {op : String} (hop : op ∈ singleOperators) : IsPiece op.toList

/-- The text is a row of pieces. -/
def Cut (cs : List Char) : Prop :=
  ∃ pieces : List (List Char), (∀ piece ∈ pieces, IsPiece piece) ∧ pieces.flatten = cs

theorem mem_pairs_of_double {op : String} (h : op ∈ doubleOperators) :
    ∃ c d, op.toList = [c, d] ∧ (c, d) ∈ pairs := by
  have hall : doubleOperators.all (fun op =>
      pairs.any fun pair => op.toList == [pair.1, pair.2]) = true := by
    decide
  obtain ⟨pair, hpair, heq⟩ := List.any_eq_true.mp (List.all_eq_true.mp hall op h)
  exact ⟨pair.1, pair.2, by simpa using heq, hpair⟩

theorem double_of_mem_pairs {c d : Char} (h : (c, d) ∈ pairs) : IsPiece [c, d] := by
  have hall : pairs.all (fun pair => doubleOperators.contains (String.ofList [pair.1, pair.2])) =
      true := by
    decide
  have hop := List.all_eq_true.mp hall (c, d) h
  simpa using IsPiece.double (List.contains_iff_mem.mp hop)

theorem mem_signs_of_single {op : String} (h : op ∈ singleOperators) :
    ∃ c, op.toList = [c] ∧ (signs.lookup c).isSome = true := by
  have hall : singleOperators.all (fun op =>
      op.toList.length == 1 && op.toList.all fun c => (signs.lookup c).isSome) = true := by
    decide
  have hop := List.all_eq_true.mp hall op h
  simp only [Bool.and_eq_true, beq_iff_eq] at hop
  obtain ⟨c, hc⟩ := List.length_eq_one_iff.mp hop.1
  exact ⟨c, hc, List.all_eq_true.mp hop.2 c (by simp [hc])⟩

theorem single_of_mem_signs {c : Char} {kind : Kind} (h : signs.lookup c = some kind) :
    IsPiece [c] := by
  have hall : signs.all (fun sign => singleOperators.contains (String.ofList [sign.1])) = true := by
    decide
  obtain ⟨before, after, heq, -⟩ := List.lookup_eq_some_iff.mp h
  have hop := List.all_eq_true.mp hall (c, kind) (by simp [heq])
  simpa using IsPiece.single (List.contains_iff_mem.mp hop)

/-! ## Pieces by their first character -/

/-- What a piece that starts with a given character is. -/
inductive PieceFrom (c : Char) (cs : List Char) : Prop where
  | space (hc : isSpace c = true) (hcs : cs = [])
  | word (hc : isWordStart c = true) (hcs : ∀ d ∈ cs, isWordPart d = true)
  | number (hc : c.isDigit = true) (digits tail : List Char) (hcs : cs = digits ++ tail)
      (hdigits : ∀ d ∈ digits, d.isDigit = true)
      (htail : tail = [] ∨ ∃ more, tail = '.' :: more ∧ ∀ d ∈ more, d.isDigit = true)
  | literal (hc : Source.isQuote c = true) (body : List Char) (hcs : cs = body ++ [c])
      (hbody : LiteralBody c body)
  | double (d : Char) (hcs : cs = [d]) (hpair : (c, d) ∈ pairs)
  | single (hcs : cs = []) (hsign : (signs.lookup c).isSome = true)

theorem IsPiece.cons_cases {piece : List Char} (h : IsPiece piece) :
    ∃ c cs, piece = c :: cs ∧ PieceFrom c cs := by
  cases h with
  | space hc => exact ⟨_, [], rfl, .space (by simpa [isSpace, or_assoc] using hc) rfl⟩
  | identifier hc hcs => exact ⟨_, _, rfl, .word hc hcs⟩
  | integer hc hcs => exact ⟨_, _, rfl, .number hc _ [] (by simp) hcs (.inl rfl)⟩
  | decimal hc hcs hds => exact ⟨_, _, rfl, .number hc _ _ rfl hcs (.inr ⟨_, rfl, hds⟩)⟩
  | literal hquote hbody =>
    exact ⟨_, _, rfl, .literal (by simpa [Source.isQuote] using hquote) _ rfl hbody⟩
  | double hop =>
    obtain ⟨c, d, heq, hpair⟩ := mem_pairs_of_double hop
    exact ⟨c, [d], heq, .double d rfl hpair⟩
  | single hop =>
    obtain ⟨c, heq, hsign⟩ := mem_signs_of_single hop
    exact ⟨c, [], heq, .single rfl hsign⟩

namespace Cut

variable {c : Char} {cs ds : List Char}

theorem nil : Cut [] :=
  ⟨[], by simp, rfl⟩

theorem append (h : Cut cs) (h' : Cut ds) : Cut (cs ++ ds) := by
  obtain ⟨pieces, hpieces, rfl⟩ := h
  obtain ⟨pieces', hpieces', rfl⟩ := h'
  refine ⟨pieces ++ pieces', ?_, List.flatten_append⟩
  intro piece hpiece
  exact (List.mem_append.mp hpiece).elim (hpieces piece) (hpieces' piece)

theorem piece (h : IsPiece cs) : Cut cs :=
  ⟨[cs], by simpa using h, by simp⟩

/-- The first piece of a text, and a row for what comes behind it. -/
theorem cons_cases (h : Cut (c :: cs)) :
    ∃ body rest, cs = body ++ rest ∧ PieceFrom c body ∧ Cut rest := by
  obtain ⟨pieces, hpieces, hflatten⟩ := h
  cases pieces with
  | nil => cases hflatten
  | cons piece pieces =>
    obtain ⟨d, body, rfl, hbody⟩ := (hpieces piece List.mem_cons_self).cons_cases
    rw [List.flatten_cons, List.cons_append] at hflatten
    obtain ⟨rfl, rfl⟩ := List.cons.inj hflatten
    exact ⟨body, pieces.flatten, rfl, hbody, pieces,
      fun other hother => hpieces other (List.mem_cons_of_mem _ hother), rfl⟩

/-- A part of a word is a word or a number by itself. -/
theorem of_isWordPart (h : isWordPart c = true) : Cut [c] := by
  rcases Bool.or_eq_true_iff.mp h with hstart | hdigit
  · exact piece (.identifier hstart (by simp))
  · exact piece (.integer hdigit (by simp))

/-- Words and numbers can be cut anywhere. -/
theorem of_parts (h : ∀ d ∈ cs, isWordPart d = true) : Cut cs := by
  induction cs with
  | nil => exact nil
  | cons d cs ih =>
    have hrest := ih fun e he => h e (List.mem_cons_of_mem d he)
    exact (of_isWordPart (h d List.mem_cons_self)).append hrest

end Cut

/-! ## Classes of characters -/

theorem not_part_of_mark {c : Char} (h : c ∈ marks) :
    isSpace c = false ∧ isWordStart c = false ∧ c.isDigit = false ∧ Source.isQuote c = false := by
  have hall : marks.all (fun c => !isSpace c && !isWordStart c && !c.isDigit && !Source.isQuote c) =
      true := by
    decide
  simpa [and_assoc] using List.all_eq_true.mp hall c h

theorem not_mark_of_isSpace {c : Char} (h : isSpace c = true) :
    isWordStart c = false ∧ c.isDigit = false ∧ Source.isQuote c = false := by
  rcases eq_of_isSpace h with rfl | rfl | rfl | rfl | rfl <;> decide

theorem not_word_of_isQuote {c : Char} (h : Source.isQuote c = true) :
    isWordStart c = false ∧ c.isDigit = false := by
  rcases eq_of_isQuote h with rfl | rfl <;> decide

theorem mem_marks_of_isSome {c : Char} (h : (signs.lookup c).isSome = true) : c ∈ marks := by
  obtain ⟨kind, hkind⟩ := Option.isSome_iff_exists.mp h
  exact mem_marks_of_sign hkind

/-! ## The longest piece -/

/-- The characters that go on with a number: digits, or digits, a point and digits. -/
theorem numberLength_cases (cs : List Char) :
    ∃ number rest, cs = number ++ rest ∧ numberLength cs = number.length ∧
      ((∀ d ∈ number, d.isDigit = true) ∨ ∃ digits more, number = digits ++ '.' :: more ∧
        (∀ d ∈ digits, d.isDigit = true) ∧ ∀ d ∈ more, d.isDigit = true) := by
  obtain ⟨digits, tail, rfl, hdigits, htail⟩ := exists_run Char.isDigit cs
  by_cases hpoint : tail.head? = some '.'
  · obtain ⟨fraction, rfl⟩ := List.head?_eq_some_iff.mp hpoint
    obtain ⟨more, rest, rfl, hmore, hrest⟩ := exists_run Char.isDigit fraction
    refine ⟨digits ++ '.' :: more, rest, by simp, ?_, .inr ⟨digits, more, rfl, hdigits, hmore⟩⟩
    rw [← numberLength_point hdigits hmore hrest, List.append_assoc, List.cons_append]
  · refine ⟨digits, tail, rfl, numberLength_digits hdigits ?_, .inl hdigits⟩
    intro c hc
    exact ⟨htail c hc, fun h => hpoint (h ▸ hc)⟩

namespace Cut

variable {c : Char} {cs : List Char}

/-- A part of a word, or a point, can be taken away in front. -/
theorem tail (h : Cut (c :: cs)) (hc : isWordPart c = true ∨ c = '.') : Cut cs := by
  obtain ⟨body, rest, rfl, hbody, hrest⟩ := h.cons_cases
  apply append _ hrest
  cases hbody with
  | space hspace hcs => exact hcs ▸ nil
  | word hstart hcs => exact of_parts hcs
  | number hdigit digits tail hcs hdigits htail =>
    have hparts : ∀ {ds : List Char}, (∀ d ∈ ds, d.isDigit = true) → Cut ds := by
      intro ds hds
      exact of_parts fun d hd => by simp [isWordPart, hds d hd]
    subst hcs
    apply append (hparts hdigits)
    rcases htail with rfl | ⟨more, rfl, hmore⟩
    · exact nil
    · have hpoint : IsPiece ".".toList := .single (by decide)
      exact append (piece hpoint) (hparts hmore)
  | literal hquote body hcs hliteral =>
    have hword := not_word_of_isQuote hquote
    rcases hc with hc | rfl
    · simp [isWordPart, hword.1, hword.2] at hc
    · cases hquote
  | double d hcs hpair =>
    have hmark := not_part_of_mark (mem_marks_of_pair hpair).1
    rcases hc with hc | rfl
    · simp [isWordPart, hmark.2.1, hmark.2.2.1] at hc
    · simp [pairs] at hpair
  | single hcs hsign => exact hcs ▸ nil

/-- A run of such characters can be taken away. -/
theorem drop_parts {ds : List Char} (hds : ∀ d ∈ ds, isWordPart d = true) (h : Cut (ds ++ cs)) :
    Cut cs := by
  induction ds with
  | nil => exact h
  | cons d ds ih =>
    obtain ⟨hd, hds⟩ := List.forall_mem_cons.mp hds
    exact ih hds (h.tail (.inl hd))

theorem drop_digits {ds : List Char} (hds : ∀ d ∈ ds, d.isDigit = true) (h : Cut (ds ++ cs)) :
    Cut cs :=
  h.drop_parts fun d hd => by simp [isWordPart, hds d hd]

/-- A number can be taken away. -/
theorem drop_numberLength (h : Cut cs) : Cut (cs.drop (numberLength cs)) := by
  obtain ⟨number, rest, rfl, hlength, hdigits | ⟨digits, more, rfl, hdigits, hmore⟩⟩ :=
    numberLength_cases cs
  · rw [hlength, List.drop_left]
    exact h.drop_digits hdigits
  · rw [hlength, List.drop_left]
    rw [List.append_assoc, List.cons_append] at h
    exact ((h.drop_digits hdigits).tail (.inr rfl)).drop_digits hmore

end Cut

/-- A literal ends with the first quote that is not escaped. -/
theorem LiteralBody.literalLength?_eq {quote : Char} {body : List Char}
    (h : LiteralBody quote body) (hquote : Source.isQuote quote = true) (rest : List Char) :
    literalLength? quote (body ++ quote :: rest) = some (body.length + 1) := by
  induction h with
  | nil =>
    have hplain : ¬ (quote = '\n' ∨ quote = '\\') := by
      rcases eq_of_isQuote hquote with rfl | rfl <;> decide
    rw [List.nil_append, literalLength?_cons hplain, if_pos rfl]
    rfl
  | plain hfeed hescape hdiffers _ ih =>
    rw [List.cons_append, literalLength?_cons (not_or.mpr ⟨hfeed, hescape⟩), if_neg hdiffers, ih]
    rfl
  | escaped hfeed _ ih =>
    rw [List.cons_append, List.cons_append, literalLength?, if_neg hfeed, ih]
    rfl

theorem literalBody_of_literalLength? {quote : Char} {cs : List Char} {n : Nat}
    (h : literalLength? quote cs = some n) :
    ∃ body rest, cs = body ++ quote :: rest ∧ n = body.length + 1 ∧ LiteralBody quote body := by
  fun_induction literalLength? quote cs generalizing n with
  | case1 => cases h
  | case2 => cases h
  | case3 c cs hc ih =>
    obtain ⟨m, hm, rfl⟩ := Option.map_eq_some_iff.mp h
    obtain ⟨body, rest, rfl, rfl, hbody⟩ := ih hm
    exact ⟨'\\' :: c :: body, rest, rfl, rfl, .escaped hc hbody⟩
  | case4 => cases h
  | case5 cs hescape hc =>
    obtain rfl := Option.some.inj h
    exact ⟨[], cs, rfl, rfl, .nil⟩
  | case6 c cs hescape hc hquote ih =>
    obtain ⟨m, hm, rfl⟩ := Option.map_eq_some_iff.mp h
    obtain ⟨body, rest, rfl, rfl, hbody⟩ := ih hm
    exact ⟨c :: body, rest, rfl, rfl, .plain (fun hfeed => hc (.inl hfeed))
      (fun hback => hc (.inr hback)) hquote hbody⟩

/-- Behind an operator of two characters that could have been cut in two, what is left can
still be cut. -/
theorem Cut.drop_pair {c d : Char} {cs : List Char} (hpair : (c, d) ∈ pairs)
    (h : Cut (c :: d :: cs)) : Cut cs := by
  -- No operator whose second character is no sign overlaps with another one.
  have hoverlap : pairs.all (fun pair => pairs.all fun next =>
      pair.2 != next.1 || (signs.lookup pair.1).isNone || (signs.lookup next.2).isSome) = true := by
    decide
  have hmark := not_part_of_mark (mem_marks_of_pair hpair).1
  have hmark' := not_part_of_mark (mem_marks_of_pair hpair).2
  obtain ⟨body, rest, hcs, hbody, hrest⟩ := h.cons_cases
  cases hbody with
  | space hc => simp [hmark.1] at hc
  | word hc => simp [hmark.2.1] at hc
  | number hc => simp [hmark.2.2.1] at hc
  | literal hc => simp [hmark.2.2.2] at hc
  | double e hbody =>
    subst hbody
    obtain ⟨-, rfl⟩ := List.cons.inj hcs
    exact hrest
  | single hbody hsign =>
    subst hbody
    rw [List.nil_append] at hcs
    subst hcs
    obtain ⟨body, rest, rfl, hbody, hlast⟩ := hrest.cons_cases
    cases hbody with
    | space hd => simp [hmark'.1] at hd
    | word hd => simp [hmark'.2.1] at hd
    | number hd => simp [hmark'.2.2.1] at hd
    | literal hd => simp [hmark'.2.2.2] at hd
    | double e hbody hnext =>
      have hall := List.all_eq_true.mp (List.all_eq_true.mp hoverlap (c, d) hpair) (d, e) hnext
      obtain ⟨kind, hkind⟩ := Option.isSome_iff_exists.mp hsign
      have hsecond : (signs.lookup e).isSome = true := by simpa [hkind] using hall
      obtain ⟨kind', hkind'⟩ := Option.isSome_iff_exists.mp hsecond
      subst hbody
      exact (Cut.piece (single_of_mem_signs hkind')).append hlast
    | single hbody =>
      subst hbody
      exact hlast

/-- **The longest piece.**  In front of a text that can be cut, and that does not start with
white space, the scan finds a token, and what it leaves can be cut. -/
theorem Cut.exists_lexeme {c : Char} {cs : List Char} (h : Cut (c :: cs))
    (hspace : isSpace c = false) : ∃ kind n, lexeme c cs = .ok (kind, n) ∧ Cut (cs.drop n) := by
  unfold lexeme
  by_cases hword : isWordStart c = true
  · rw [if_pos hword]
    refine ⟨_, _, rfl, ?_⟩
    have hrest := h.tail (.inl (by simp [isWordPart, hword]))
    obtain ⟨body, rest, rfl, hbody, hends⟩ := exists_run isWordPart cs
    rw [takeWhile_append_eq hbody hends, List.drop_left]
    exact hrest.drop_parts hbody
  rw [if_neg hword]
  by_cases hdigit : c.isDigit = true
  · rw [if_pos hdigit]
    exact ⟨_, _, rfl, (h.tail (.inl (by simp [isWordPart, hdigit]))).drop_numberLength⟩
  rw [if_neg hdigit]
  obtain ⟨body, rest, rfl, hbody, hrest⟩ := h.cons_cases
  cases hbody with
  | space hc => simp [hspace] at hc
  | word hc => exact absurd hc hword
  | number hc => exact absurd hc hdigit
  | literal hquote body hcs hbody =>
    subst hcs
    rw [if_pos hquote, List.append_assoc, List.singleton_append,
      hbody.literalLength?_eq hquote rest]
    refine ⟨_, _, rfl, ?_⟩
    rwa [← List.drop_drop, List.drop_left]
  | double d hcs hpair =>
    have hmark := not_part_of_mark (mem_marks_of_pair hpair).1
    subst hcs
    rw [if_neg (by simp [hmark.2.2.2]), if_pos (by simpa using hpair)]
    exact ⟨_, _, rfl, hrest⟩
  | single hcs hsign =>
    have hmark := not_part_of_mark (mem_marks_of_isSome hsign)
    obtain ⟨kind, hkind⟩ := Option.isSome_iff_exists.mp hsign
    subst hcs
    rw [if_neg (by simp [hmark.2.2.2]), List.nil_append]
    by_cases hpair : rest.head?.any (fun d => (c, d) ∈ pairs) = true
    · rw [if_pos hpair]
      refine ⟨_, _, rfl, ?_⟩
      obtain ⟨d, hd, hmem⟩ := Option.any_eq_true _ _ |>.mp hpair
      obtain ⟨ds, rfl⟩ := List.head?_eq_some_iff.mp hd
      exact h.drop_pair (by simpa using hmem)
    · rw [if_neg hpair, hkind]
      exact ⟨_, _, rfl, hrest⟩

/-- What a token of a kind is, with the characters `body` behind its first one and `rest`
behind it. -/
inductive Lexeme (c : Char) (body rest : List Char) : Kind → Prop where
  | word (hc : isWordStart c = true) (hbody : ∀ d ∈ body, isWordPart d = true)
      (hrest : ∀ d ∈ rest.head?, isWordPart d = false) : Lexeme c body rest (wordKind (c :: body))
  | number (hc : c.isDigit = true)
      (hbody : (∀ d ∈ body, d.isDigit = true) ∨ ∃ digits more, body = digits ++ '.' :: more ∧
        (∀ d ∈ digits, d.isDigit = true) ∧ ∀ d ∈ more, d.isDigit = true) :
      Lexeme c body rest .number
  | literal (hc : Source.isQuote c = true) (inner : List Char) (hbody : body = inner ++ [c])
      (hinner : LiteralBody c inner) : Lexeme c body rest .string
  | double (d : Char) (hbody : body = [d]) (hpair : (c, d) ∈ pairs) : Lexeme c body rest .operator
  | single {kind : Kind} (hbody : body = []) (hsign : signs.lookup c = some kind) :
      Lexeme c body rest kind

theorem exists_of_lexeme {c : Char} {cs : List Char} {kind : Kind} {n : Nat}
    (h : lexeme c cs = .ok (kind, n)) :
    ∃ body rest, cs = body ++ rest ∧ body.length = n ∧ Lexeme c body rest kind := by
  unfold lexeme at h
  split at h
  · rename_i hword
    cases h
    obtain ⟨body, rest, rfl, hbody, hends⟩ := exists_run isWordPart cs
    rw [takeWhile_append_eq hbody hends]
    exact ⟨body, rest, rfl, rfl, .word hword hbody hends⟩
  split at h
  · rename_i hdigit
    cases h
    obtain ⟨number, rest, rfl, hlength, hnumber⟩ := numberLength_cases cs
    exact ⟨number, rest, rfl, hlength.symm, .number hdigit hnumber⟩
  split at h
  · rename_i hquote
    cases hlength : literalLength? c cs with
    | none => simp [hlength] at h
    | some m =>
      simp only [hlength] at h
      cases h
      obtain ⟨body, rest, rfl, rfl, hbody⟩ := literalBody_of_literalLength? hlength
      exact ⟨body ++ [c], rest, by simp, by simp, .literal hquote body rfl hbody⟩
  split at h
  · rename_i hpair
    cases h
    obtain ⟨d, hd, hmem⟩ := Option.any_eq_true _ _ |>.mp hpair
    obtain ⟨ds, rfl⟩ := List.head?_eq_some_iff.mp hd
    exact ⟨[d], ds, rfl, rfl, .double d rfl (by simpa using hmem)⟩
  · cases hkind : signs.lookup c with
    | none => simp [hkind] at h
    | some kind' =>
      simp only [hkind] at h
      cases h
      exact ⟨[], cs, rfl, rfl, .single rfl hkind⟩

/-- A token is a piece. -/
theorem isPiece_of_lexeme {c : Char} {cs : List Char} {kind : Kind} {n : Nat}
    (h : lexeme c cs = .ok (kind, n)) : IsPiece (c :: cs.take n) := by
  obtain ⟨body, rest, rfl, rfl, hlexeme⟩ := exists_of_lexeme h
  rw [List.take_left]
  cases hlexeme with
  | word hc hbody => exact .identifier hc hbody
  | number hc hbody =>
    obtain hdigits | ⟨digits, more, rfl, hdigits, hmore⟩ := hbody
    · exact .integer hc hdigits
    · exact .decimal hc hdigits hmore
  | literal hc inner hbody hinner =>
    subst hbody
    exact .literal (eq_of_isQuote hc) hinner
  | double d hbody hpair =>
    subst hbody
    exact double_of_mem_pairs hpair
  | single hbody hsign =>
    subst hbody
    exact single_of_mem_signs hsign

/-! ## The scan -/

theorem cut_of_scan {p : Pos} {cs : List Char} {ts : List Token} (h : scan p cs = .ok ts) :
    Cut cs := by
  induction h using scan_induction with
  | ends p => exact .nil
  | space p c cs ts hspace h ih =>
    refine Cut.append (.piece (.space ?_)) ih
    simpa [isSpace, or_assoc] using hspace
  | token p c cs ts kind n hlexeme h ih =>
    rw [← List.take_append_drop n cs, ← List.cons_append]
    exact Cut.append (.piece (isPiece_of_lexeme hlexeme)) ih

/-- White space stands alone in every row. -/
theorem Cut.drop_space {c : Char} {cs : List Char} (h : Cut (c :: cs)) (hc : isSpace c = true) :
    Cut cs := by
  have hclass := not_mark_of_isSpace hc
  obtain ⟨body, rest, rfl, hbody, hrest⟩ := h.cons_cases
  cases hbody with
  | space _ hbody => exact hbody ▸ hrest
  | word hword => simp [hclass.1] at hword
  | number hdigit => simp [hclass.2.1] at hdigit
  | literal hquote => simp [hclass.2.2] at hquote
  | double d _ hpair => simp [(not_part_of_mark (mem_marks_of_pair hpair).1).1] at hc
  | single _ hsign => simp [(not_part_of_mark (mem_marks_of_isSome hsign)).1] at hc

/-- The scan finds a row if there is one. -/
theorem Cut.exists_scan {cs : List Char} (h : Cut cs) (p : Pos) : ∃ ts, scan p cs = .ok ts := by
  fun_induction scan p cs with
  | case1 p => exact ⟨_, rfl⟩
  | case2 p c cs hspace ih => exact ih (h.drop_space hspace)
  | case3 p c cs hspace reason hlexeme =>
    obtain ⟨kind, n, hfound, -⟩ := h.exists_lexeme (by simpa using hspace)
    rw [hlexeme] at hfound
    cases hfound
  | case4 p c cs hspace kind n hlexeme e herror ih =>
    obtain ⟨kind', n', hfound, hrest⟩ := h.exists_lexeme (by simpa using hspace)
    rw [hlexeme] at hfound
    cases hfound
    obtain ⟨ts, hts⟩ := ih hrest
    rw [herror] at hts
    cases hts
  | case5 => exact ⟨_, rfl⟩

end Token

/-- **The lexical grammar.**  A text is cut into tokens exactly if it is a row of pieces.
Where it is not, the text before the failure is cut into the tokens found so far, and the
character at the failure starts no token. -/
theorem tokenize_grammar (text : String) :
    ((∃ tokens, tokenize text = .ok tokens) ↔ Token.Cut text.toList) ∧
      ∀ e, tokenize text = .error e → ∃ found front c rest,
        Token.Finds .start text.toList found e.pos (c :: rest) ∧
        text.toList = front ++ c :: rest ∧ e.pos = Pos.ofIndex text.toList front.length ∧
        Token.lexeme c rest = .error e.reason ∧
        tokenize (String.ofList front) = .ok (found ++ [Token.eof e.pos]) := by
  refine ⟨⟨?_, fun h => h.exists_scan .start⟩, ?_⟩
  · rintro ⟨tokens, h⟩
    exact Token.cut_of_scan h
  · intro e h
    obtain ⟨found, c, rest, hfinds, -, herror⟩ := Token.finds_of_scan_error h
    obtain ⟨front, hfront, hpos, hscan⟩ := hfinds.scan_front
    refine ⟨found, front, c, rest, hfinds, hfront, ?_, herror, ?_⟩
    · rw [← Pos.after_take_eq, hfront, List.take_left, hpos]
    · rw [tokenize, String.toList_ofList, hscan]

/-- Every token is the longest one at its place, and the last character starts none. -/
def brokenText : String :=
  "i1>==-2.&&|"

theorem tokenize_brokenText :
    tokenize brokenText = .error ⟨.unsupportedCharacter '|', ⟨1, 11⟩⟩ := by
  decide +kernel

theorem tokenize_grammar_brokenText :
    tokenize brokenText = .error ⟨.unsupportedCharacter '|', ⟨1, 11⟩⟩ ∧
      ¬ Token.Cut brokenText.toList ∧ ∃ found front c rest,
        Token.Finds .start brokenText.toList found ⟨1, 11⟩ (c :: rest) ∧
        brokenText.toList = front ++ c :: rest ∧
        ⟨1, 11⟩ = Pos.ofIndex brokenText.toList front.length ∧
        Token.lexeme c rest = .error (.unsupportedCharacter '|') ∧
        tokenize (String.ofList front) = .ok (found ++ [Token.eof ⟨1, 11⟩]) := by
  obtain ⟨haccepts, hfails⟩ := tokenize_grammar brokenText
  refine ⟨tokenize_brokenText, ?_, hfails _ tokenize_brokenText⟩
  intro hcut
  obtain ⟨tokens, htokens⟩ := haccepts.mpr hcut
  rw [tokenize_brokenText] at htokens
  cases htokens

end Pseudocode
