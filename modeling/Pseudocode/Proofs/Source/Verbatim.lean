import Pseudocode.Proofs.Scope.Words
import Pseudocode.Proofs.Source.Location
set_option autoImplicit false

/-!
# Literals in a source

No comments are looked for in a literal, so nothing of it is blanked on the way from the source
to the tokens, and the place of its token leads back to the quote that opens it.  But the tabs of
a source are expanded before its literals are known.  A token is therefore what the source has at
its place, with the tabs expanded: the very characters of the source if there is no tab among
them, and only then.
-/

namespace Pseudocode

namespace Source

/-! ## Texts at a place -/

/-- The text stands in the source, on the line and from the column on. -/
def StandsAt (source : String) (text : List Char) (line column : Int) : Prop :=
  InSource source line column ∧
    ∃ l ∈ (sourceLines source)[(line - 1).toNat]?, text <+: l.drop (column - 1).toNat

/-- A text without a line feed stands at a place just when what the source has behind the place
starts with it. -/
theorem Behind.standsAt_iff {source : String} {front rest : List Char} {line column : Int}
    (h : Behind source front rest line column) {text : List Char} (htext : '\n' ∉ text) :
    StandsAt source text line column ↔ text <+: rest := by
  obtain ⟨full, part, -, -, -, hcolumn, hline⟩ := h.exists_line
  have hdrop : (part ++ rest.takeWhile (· ≠ '\n')).drop (column - 1).toNat =
      rest.takeWhile (· ≠ '\n') := by
    rw [hcolumn]
    simp
  have hstands : StandsAt source text line column ↔ text <+: rest.takeWhile (· ≠ '\n') := by
    simp only [StandsAt, hline, Option.mem_some, exists_eq_left', hdrop, h.inSource, true_and]
  rw [hstands]
  constructor
  · intro hprefix
    exact hprefix.trans (List.takeWhile_prefix _)
  · rintro ⟨behind, rfl⟩
    rw [takeWhile_of_not_mem htext]
    exact List.prefix_append _ _

/-- Expanding the tabs of a text leaves it as it is only if there are none: the first one would
have to be a blank. -/
theorem expandTabs_prefix_iff {written rest : List Char} :
    expandTabs written <+: written ++ rest ↔ '\t' ∉ written := by
  constructor
  · rintro hprefix htab
    obtain ⟨before, behind, rfl, hbefore⟩ := List.eq_append_cons_of_mem htab
    rw [expandTabs_append, expandTabs_of_not_mem hbefore, expandTabs_cons, if_pos rfl,
      List.append_assoc, List.prefix_append_right_inj] at hprefix
    obtain ⟨hblank, -⟩ := List.cons_prefix_cons.mp hprefix
    exact absurd hblank (by decide)
  · intro htab
    rw [expandTabs_of_not_mem htab]
    exact List.prefix_append _ _

/-- A text between two quotes that shows once the tabs are expanded was there before, up to the
tabs in it. -/
theorem exists_quoted_of_expandTabs {cs before body behind : List Char} {q : Char}
    (hq : isQuote q = true) (h : expandTabs cs = before ++ q :: (body ++ q :: behind)) :
    ∃ front inner rest, cs = front ++ (q :: inner ++ [q] ++ rest) ∧ expandTabs front = before ∧
      expandTabs inner = body := by
  have hvisible : q ≠ ' ' := by
    rintro rfl
    exact absurd hq (by decide)
  have htab : q ≠ '\t' := by
    rintro rfl
    exact absurd hq (by decide)
  obtain ⟨front, opened, rfl, hfront⟩ := exists_of_expandTabs h hvisible
  rw [expandTabs_append, hfront, List.append_cancel_left_eq, expandTabs_cons_of_ne htab,
    List.cons.injEq] at h
  obtain ⟨inner, rest, rfl, hinner⟩ := exists_of_expandTabs h.2 hvisible
  exact ⟨front, inner, rest, by simp, hfront, hinner⟩

/-! ## Literals in the normal form -/

/-- What belongs to a literal is shown as it is. -/
theorem getElem?_normalChars {cs : List Char} {k : Nat} {q : Char}
    (h : (regions .code (normalChars cs))[k]? = some (.literal q)) :
    (normalChars cs)[k]? = (expandTabs (unifyLineEnds cs))[k]? := by
  rw [regions_normalChars, List.getElem?_map, Option.map_eq_some_iff] at h
  obtain ⟨r, hr, hsettled⟩ := h
  obtain rfl := Region.settled_eq_literal.mp hsettled
  rw [normalChars, blankComments_eq, List.getElem?_zipWith, hr]
  cases (expandTabs (unifyLineEnds cs))[k]? <;> simp [Region.shown, Region.isComment]

/-- What can be seen at an index was there before. -/
theorem Blanked.getElem? {cs ds : List Char} (h : Blanked cs ds) {k : Nat} {d : Char}
    (hd : ds[k]? = some d) (hvisible : d ≠ ' ') : cs[k]? = some d := by
  obtain ⟨hk, hget⟩ := List.getElem?_eq_some_iff.mp hd
  have hk' : k < cs.length := h.length_eq ▸ hk
  have hblanks : Blanks cs[k] ds[k] := h.get hk' hk
  rw [hget] at hblanks
  rw [List.getElem?_eq_getElem hk', hblanks.eq_of_visible hvisible]

end Source

open Source (unifyLineEnds expandTabs normalChars regions isQuote sourceColumn StandsAt Behind)

namespace Token

/-- A slice from one quote to another. -/
theorem exists_between {cs : List Char} {q : Char} {i j : Nat} (hij : i < j)
    (hopening : cs[i]? = some q) (hclosing : cs[j]? = some q) :
    ∃ body, (cs.drop i).take (j + 1 - i) = q :: body ++ [q] := by
  have hlast : (cs.drop (i + 1)).take (j - i) = (cs.drop (i + 1)).take (j - i - 1) ++ [q] := by
    have hat : (cs.drop (i + 1))[j - i - 1]? = some q := by
      rw [List.getElem?_drop, ← hclosing]
      congr 1
      omega
    obtain ⟨hlt, hget⟩ := List.getElem?_eq_some_iff.mp hat
    rw [← hget, ← List.take_succ_eq_append_getElem hlt]
    congr 1
    omega
  obtain ⟨hi, hget⟩ := List.getElem?_eq_some_iff.mp hopening
  refine ⟨(cs.drop (i + 1)).take (j - i - 1), ?_⟩
  rw [List.drop_eq_getElem_cons hi, hget, show j + 1 - i = j - i + 1 by omega,
    List.take_succ_cons, hlast]
  rfl

/-- A literal among the tokens is a slice of the source with its tabs expanded. -/
theorem exists_literal_in_expanded {source : String} {tokens : List Token}
    (h : tokenize (Source.normalize source) = .ok tokens) {t : Token} (ht : t ∈ tokens)
    (hkind : t.kind = .string) :
    ∃ q before body behind, isQuote q = true ∧
      expandTabs (unifyLineEnds source.toList) = before ++ q :: (body ++ q :: behind) ∧
      t.text.toList = q :: body ++ [q] ∧ t.pos = Pos.start.after before := by
  have hnormal : (Source.normalize source).toList = normalChars source.toList :=
    String.toList_ofList
  have hblanked := Source.blanked_normalChars source.toList
  have htraced := scan_agree h (by
    rw [hnormal]
    exact Source.uncommented_normalChars _)
  obtain ⟨q, i, j, hliteral, hregion, -⟩ := htraced.token t ht hkind
  rw [hnormal] at hliteral hregion
  have hvisible : q ≠ ' ' := by
    rintro rfl
    exact absurd hliteral.quote (by decide)
  -- From the opening quote on the two texts agree, up to and with the closing one.
  have hsame : ∀ k, i ≤ k → k ≤ j →
      (normalChars source.toList)[k]? = (expandTabs (unifyLineEnds source.toList))[k]? := by
    intro k hik hkj
    rcases Nat.eq_or_lt_of_le hik with rfl | hlt
    · rw [hliteral.opening, hblanked.getElem? hliteral.opening hvisible]
    · exact Source.getElem?_normalChars (hregion k hlt hkj)
  have hslice : ((normalChars source.toList).drop i).take (j + 1 - i) =
      ((expandTabs (unifyLineEnds source.toList)).drop i).take (j + 1 - i) := by
    apply List.ext_getElem?
    intro k
    simp only [List.getElem?_take, List.getElem?_drop]
    split
    · exact hsame (i + k) (by omega) (by omega)
    · rfl
  have hij := hliteral.lt
  obtain ⟨body, hbody⟩ := exists_between hij hliteral.opening hliteral.closing
  refine ⟨q, (expandTabs (unifyLineEnds source.toList)).take i, body,
    (expandTabs (unifyLineEnds source.toList)).drop (j + 1), hliteral.quote, ?_, ?_, ?_⟩
  · have hdrop : (expandTabs (unifyLineEnds source.toList)).drop i =
        q :: body ++ [q] ++ (expandTabs (unifyLineEnds source.toList)).drop (j + 1) := by
      rw [← hbody, hslice, show j + 1 = i + (j + 1 - i) by omega, ← List.drop_drop,
        Nat.add_sub_cancel_left, List.take_append_drop]
    conv_lhs => rw [← List.take_append_drop i (expandTabs (unifyLineEnds source.toList)), hdrop]
    simp
  · rw [hliteral.text, String.toList_ofList, hbody]
  · have htake : Source.Blanked ((expandTabs (unifyLineEnds source.toList)).take i)
        ((normalChars source.toList).take i) := List.forall₂_take i hblanked
    rw [hliteral.pos, htake.after_eq]

theorem LiteralBody.of_blank {q : Char} {cs : List Char} (h : LiteralBody q (' ' :: cs)) :
    LiteralBody q cs := by
  cases h with
  | plain _ _ _ hrest => exact hrest

/-- A character other than a backslash at the front of a literal. -/
theorem LiteralBody.cons_of_expandTabs {q c : Char} {cs : List Char} (hq : isQuote q = true)
    (hc : c ≠ '\\') (hcs : LiteralBody q (expandTabs cs) → LiteralBody q cs)
    (h : LiteralBody q (expandTabs (c :: cs))) : LiteralBody q (c :: cs) := by
  by_cases htab : c = '\t'
  · subst htab
    have hrest : LiteralBody q (expandTabs cs) := of_blank (of_blank h)
    have hne : '\t' ≠ q := by
      rintro rfl
      exact absurd hq (by decide)
    exact .plain (by decide) (by decide) hne (hcs hrest)
  · rw [Source.expandTabs_cons_of_ne htab] at h
    generalize expandTabs cs = ds at h hcs
    cases h with
    | plain hfeed hback hquote hrest => exact .plain hfeed hback hquote (hcs hrest)
    | escaped => exact absurd rfl hc

/-- A literal is one before its tabs are expanded: behind a backslash a tab is one character, of
whose blanks the second one is no longer escaped. -/
theorem LiteralBody.of_expandTabs {q : Char} {cs : List Char} (hq : isQuote q = true)
    (h : LiteralBody q (expandTabs cs)) : LiteralBody q cs := by
  induction cs using List.twoStepInduction with
  | nil => exact .nil
  | singleton c =>
    refine cons_of_expandTabs hq ?_ id h
    rintro rfl
    cases h with
    | plain _ hback => exact absurd rfl hback
  | cons_cons c d cs ih ih' =>
    by_cases hback : c = '\\'
    · subst hback
      rw [Source.expandTabs_cons_of_ne (by decide)] at h
      by_cases htab : d = '\t'
      · subst htab
        cases h with
        | plain _ hback => exact absurd rfl hback
        | escaped _ hrest => exact .escaped (by decide) (ih (of_blank hrest))
      · rw [Source.expandTabs_cons_of_ne htab] at h
        cases h with
        | plain _ hback => exact absurd rfl hback
        | escaped hfeed hrest => exact .escaped hfeed (ih hrest)
    · exact cons_of_expandTabs hq hback (ih' d) h

/-- What stands between the quotes of a token of kind string. -/
theorem literalBody_of_isLexeme {q : Char} {body : List Char}
    (h : isLexeme .string (String.ofList (q :: body ++ [q])) = true) : LiteralBody q body := by
  obtain ⟨c, cs, htext, hlexeme⟩ := isLexeme_iff.mp h
  obtain ⟨rfl, rfl⟩ := List.cons.inj (String.ofList_injective htext)
  obtain ⟨inner, rest, hcut, hlength, hinner⟩ :=
    literalBody_of_literalLength? (literalLength?_of_lexeme hlexeme).2
  obtain ⟨rfl, -⟩ := List.append_inj hcut (by simpa using hlength)
  exact hinner

end Token

/-- **Literals in the source.**  Whenever the normal form of a source can be cut into tokens, each
token of kind string comes from a literal of the source.  The literal stands on the line of the
token, from the column on that the column of the token leads back to, and the token has its
characters with the tabs expanded.  So the text of the token itself stands there just when the
literal has no tab. -/
theorem literal_stands_in_source {source : String} {tokens : List Token}
    (h : tokenize (Source.normalize source) = .ok tokens) {t : Token} (ht : t ∈ tokens)
    (hkind : t.kind = .string) :
    ∃ q inner, isQuote q = true ∧ Token.LiteralBody q inner ∧
      StandsAt source (q :: inner ++ [q]) t.pos.line
        (sourceColumn source t.pos.line t.pos.column) ∧
      t.text.toList = q :: expandTabs inner ++ [q] ∧
      (StandsAt source t.text.toList t.pos.line
        (sourceColumn source t.pos.line t.pos.column) ↔ '\t' ∉ inner) := by
  obtain ⟨q, before, body, behind, hq, hcut, htext, hpos⟩ :=
    Token.exists_literal_in_expanded h ht hkind
  obtain ⟨front, inner, rest, hsource, rfl, rfl⟩ := Source.exists_quoted_of_expandTabs hq hcut
  have hlexeme : Token.isLexeme .string t.text = true := by
    have hlexical := Token.scan_admits h t ht
    rw [hkind] at hlexical
    exact hlexical.resolve_left fun heof => by simp at heof
  rw [← String.ofList_toList (s := t.text), htext] at hlexeme
  have hinner := (Token.literalBody_of_isLexeme hlexeme).of_expandTabs hq
  have hmarks : q ≠ '\n' ∧ q ≠ '\t' := by
    rcases Token.eq_of_isQuote hq with rfl | rfl <;> decide
  have hexpanded : t.text.toList = expandTabs (q :: inner ++ [q]) := by
    rw [htext, Source.expandTabs_append, Source.expandTabs_cons_of_ne hmarks.2,
      Source.expandTabs_cons_of_ne hmarks.2]
    rfl
  have hline : ∀ {body : List Char}, Token.LiteralBody q body → '\n' ∉ q :: body ++ [q] := by
    intro body hbody
    have hfeed : '\n' ∉ body := fun h => hbody.ne_feed h rfl
    simp [hfeed, hmarks.1.symm]
  have hbehind := Behind.of_expandTabs hsource hpos
  refine ⟨q, inner, hq, hinner, ?_, htext, ?_⟩
  · rw [hbehind.standsAt_iff (hline hinner)]
    exact List.prefix_append _ _
  · rw [hbehind.standsAt_iff (htext ▸ hline (Token.literalBody_of_isLexeme hlexeme)), hexpanded,
      Source.expandTabs_prefix_iff]
    simp [hmarks.2.symm]

/-- Two literals behind a tab, one of them with a tab of its own. -/
def tabbedSource : String :=
  "\ts = \"a\tb\" + 'c';"

/-- The tokens of its normal form. -/
def tabbedTokens : List Token :=
  [⟨.identifier, "s", ⟨1, 3⟩⟩, ⟨.operator, "=", ⟨1, 5⟩⟩, ⟨.string, "\"a  b\"", ⟨1, 7⟩⟩,
    ⟨.operator, "+", ⟨1, 14⟩⟩, ⟨.string, "'c'", ⟨1, 16⟩⟩, ⟨.semicolon, ";", ⟨1, 19⟩⟩,
    ⟨.eof, "", ⟨1, 20⟩⟩]

theorem tokenize_tabbedSource :
    tokenize (Source.normalize tabbedSource) = .ok tabbedTokens :=
  tokenize_of_toOption (by decide +kernel)

/-- The literal with the tab stands in the source from column 6 on, the text of its token does
not.  The other literal stands in column 14 as it is in its token. -/
theorem literal_stands_in_tabbedSource :
    tokenize (Source.normalize tabbedSource) = .ok tabbedTokens ∧
      (∃ q inner, StandsAt tabbedSource (q :: inner ++ [q]) 1 6 ∧ '\t' ∈ inner ∧
        q :: expandTabs inner ++ [q] = "\"a  b\"".toList ∧
        ¬ StandsAt tabbedSource "\"a  b\"".toList 1 6) ∧
      StandsAt tabbedSource "'c'".toList 1 14 := by
  have hplain : sourceColumn tabbedSource 1 7 = 6 := by decide
  have hother : sourceColumn tabbedSource 1 16 = 14 := by decide
  refine ⟨tokenize_tabbedSource, ?_, ?_⟩
  · obtain ⟨q, inner, -, -, hstands, htext, hiff⟩ :=
      literal_stands_in_source tokenize_tabbedSource
        (t := ⟨.string, "\"a  b\"", ⟨1, 7⟩⟩) (by simp [tabbedTokens]) rfl
    have hnot : ¬ StandsAt tabbedSource "\"a  b\"".toList 1 6 := by
      rintro ⟨-, l, hl, hprefix⟩
      obtain rfl : l = tabbedSource.toList := Option.some.inj (hl.symm.trans (by decide))
      exact absurd hprefix (by decide)
    exact ⟨q, inner, hplain ▸ hstands, not_not.mp fun h => hnot (hplain ▸ hiff.mpr h), htext.symm,
      hnot⟩
  · obtain ⟨q, inner, -, -, -, htext, hiff⟩ :=
      literal_stands_in_source tokenize_tabbedSource
        (t := ⟨.string, "'c'", ⟨1, 16⟩⟩) (by simp [tabbedTokens]) rfl
    refine hother ▸ hiff.mpr fun htab => ?_
    obtain ⟨before, behind, rfl, -⟩ := List.eq_append_cons_of_mem htab
    have hblank : ' ' ∈ "'c'".toList := by
      rw [htext]
      simp [Source.expandTabs_append, Source.expandTabs_cons, Source.tabWidth]
    exact absurd hblank (by decide)

end Pseudocode
