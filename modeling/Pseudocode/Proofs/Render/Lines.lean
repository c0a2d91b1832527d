import Pseudocode.Proofs.Render.Composed
import Pseudocode.Proofs.Token.Literals
set_option autoImplicit false

/-!
# Texts that fill a line

Every text that rendering puts on a line is solid: it is not empty, it does not start with
a blank, and no line feed breaks it.  So a line of the output is a line of the sheet, and
its blanks in front are its indentation and nothing else.

This holds of whatever is read from a text, since no token has a line feed in it, and of
every style of the catalogue, whose words are solid.
-/

namespace Pseudocode

namespace Text

/-- No line feed breaks the text. -/
def OneLine (t : String) : Prop :=
  '\n' ∉ t.toList

instance (t : String) : Decidable (OneLine t) :=
  inferInstanceAs (Decidable (¬ _))

/-- The text fills a line, and it does not start with a blank. -/
structure Solid (t : String) : Prop where
  oneLine : OneLine t
  visible : ∃ c ∈ t.toList.head?, c ≠ ' '

instance (t : String) : Decidable (Solid t) :=
  decidable_of_decidable_of_iff (p := OneLine t ∧ t.toList.head?.any (· != ' ') = true) (by
    constructor
    · rintro ⟨h, hhead⟩
      obtain ⟨c, hc, hne⟩ := (Option.any_eq_true _ _).mp hhead
      exact ⟨h, c, hc, by simpa using hne⟩
    · rintro ⟨h, c, hc, hne⟩
      exact ⟨h, (Option.any_eq_true _ _).mpr ⟨c, hc, by simpa using hne⟩⟩)

theorem OneLine.append {t u : String} (ht : OneLine t) (hu : OneLine u) : OneLine (t ++ u) := by
  unfold OneLine at *
  simp [ht, hu]

theorem Solid.append {t u : String} (ht : Solid t) (hu : OneLine u) : Solid (t ++ u) := by
  obtain ⟨c, hc, hne⟩ := ht.visible
  refine ⟨ht.oneLine.append hu, c, ?_, hne⟩
  rw [String.toList_append, List.head?_append, Option.mem_def.mp hc]
  rfl

theorem oneLine_join {separator : String} (hseparator : OneLine separator) {ts : List String}
    (h : ∀ t ∈ ts, OneLine t) : OneLine (join separator ts) := by
  fun_induction join separator ts with
  | case1 => decide
  | case2 t => exact h t List.mem_cons_self
  | case3 t u ts ih =>
    apply ((h t List.mem_cons_self).append hseparator).append
    exact ih fun v hv => h v (List.mem_cons_of_mem t hv)

theorem OneLine.bracketed {t : String} (h : OneLine t) : Solid (bracketed t) := by
  have hopen : Solid "(" := by decide
  have hclose : OneLine ")" := by decide
  exact (hopen.append h).append hclose

theorem OneLine.subscript {t : String} (h : OneLine t) : Solid (subscript t) := by
  have hopen : Solid "[" := by decide
  have hclose : OneLine "]" := by decide
  exact (hopen.append h).append hclose

theorem OneLine.trim {t : String} (h : OneLine t) : OneLine (trim t) := by
  intro hmem
  rw [Text.trim, String.toList_ofList, List.mem_reverse] at hmem
  have hfront := (List.dropWhile_sublist _).subset hmem
  exact h ((List.dropWhile_sublist _).subset (List.mem_reverse.mp hfront))

end Text

open Text (OneLine Solid)

/-! ## Words of a text -/

namespace Token

/-- A literal does not run over the end of its line. -/
theorem newline_not_mem_of_literalLength? {q : Char} {cs : List Char} {n : Nat} (hq : q ≠ '\n')
    (h : literalLength? q cs = some n) : '\n' ∉ cs.take n := by
  fun_induction literalLength? q cs generalizing n with
  | case1 => cases h
  | case2 => cases h
  | case3 c cs hc ih =>
    obtain ⟨m, hm, rfl⟩ := Option.map_eq_some_iff.mp h
    simpa [Ne.symm hc] using ih hm
  | case4 => cases h
  | case5 cs hescape hc =>
    obtain rfl := Option.some.inj h
    simpa using hq.symm
  | case6 c cs hescape hc hquote ih =>
    obtain ⟨m, hm, rfl⟩ := Option.map_eq_some_iff.mp h
    have hfeed : c ≠ '\n' := fun hfeed => hc (.inl hfeed)
    simpa [hfeed.symm] using ih hm

theorem solid_of_isLexeme {kind : Kind} {text : String} (h : isLexeme kind text = true) :
    Solid text := by
  obtain ⟨c, cs, rfl, hlexeme⟩ := isLexeme_iff.mp h
  obtain ⟨hblank, hfeed⟩ := visible_of_isSpace (isSpace_of_lexeme hlexeme)
  constructor
  · unfold OneLine
    by_cases hkind : kind = .string
    · subst hkind
      obtain ⟨hquote, hlength⟩ := literalLength?_of_lexeme hlexeme
      have hbody := newline_not_mem_of_literalLength? hfeed hlength
      rw [List.take_length] at hbody
      simpa [hfeed.symm] using hbody
    · intro hmem
      have hplain := (plain_of_isLexeme h hkind hmem).2
      cases hplain
  · exact ⟨c, by simp, hblank⟩

end Token

theorem Vocabulary.solid_of_lexical {kind : Kind} {text : String} (h : lexical kind text)
    (hkind : kind ≠ .eof) : Solid text :=
  Token.solid_of_isLexeme (isLexeme_of_lexical h hkind)

/-! ## Numbers -/

namespace Binary64

/-- The characters that numbers are written with. -/
def isNumeric (c : Char) : Bool :=
  c.isDigit || ['+', '-', '.', 'a', 'e', 'f', 'i', 'n'].contains c

theorem all_toDigits (n : Nat) : (Nat.toDigits 10 n).all isNumeric = true := by
  refine List.all_eq_true.mpr fun c hc => ?_
  have hdigit := Nat.isDigit_of_mem_toDigits (by decide) (by decide) hc
  simp [isNumeric, hdigit]

theorem all_scientific (n : Nat) (e : Int) : (scientific n e).digits.all isNumeric = true := by
  refine List.all_eq_true.mpr fun c hc => ?_
  have hback := (List.dropWhile_sublist _).subset (List.mem_reverse.mp hc)
  exact List.all_eq_true.mp (all_toDigits n) c (List.mem_reverse.mp hback)

theorem all_shortest (m : Nat) (e : Int) : (shortest m e).digits.all isNumeric = true := by
  have hchoice : ∀ {b b' : Bool} {s s' s'' : Scientific},
      (if b then some s else if b' then some s' else none) = some s'' → s'' = s ∨ s'' = s' := by
    intro b b' s s' s'' h
    cases b <;> cases b' <;> simp_all
  have hfound : ∀ {x : Binary64} {num den count : Nat} {s : Scientific},
      withDigits? x num den count = some s → s.digits.all isNumeric = true := by
    intro x num den count s hs
    rcases hchoice hs with rfl | rfl
    · exact all_scientific _ _
    · exact all_scientific _ _
  unfold shortest
  dsimp only
  cases hshort : List.findSome? _ _ with
  | none => decide
  | some s =>
    obtain ⟨count, -, hs⟩ := List.exists_of_findSome?_eq_some hshort
    exact hfound hs

theorem all_write (form : DecimalForm) {s : Scientific} (h : s.digits.all isNumeric = true) :
    (form.write s).toList.all isNumeric = true := by
  have hzero : isNumeric '0' = true := by decide
  have hpoint : isNumeric '.' = true := by decide
  have hzeros : ∀ n, (List.replicate n '0').all isNumeric = true := by simp [hzero]
  have htake : ∀ n, (s.digits.take n).all isNumeric = true := fun n =>
    List.all_eq_true.mpr fun c hc => List.all_eq_true.mp h c (List.mem_of_mem_take hc)
  have hdrop : ∀ n, (s.digits.drop n).all isNumeric = true := fun n =>
    List.all_eq_true.mpr fun c hc => List.all_eq_true.mp h c (List.mem_of_mem_drop hc)
  unfold DecimalForm.write
  split
  · unfold pointed
    split
    · dsimp only
      split <;> simp only [String.toList_ofList, List.all_append, List.all_cons, List.all_nil,
        htake, hdrop, hzeros, hzero, hpoint, Bool.and_self]
    · simp only [String.toList_ofList, List.cons_append, List.all_append, List.all_cons, h, hzeros,
        hzero, hpoint, Bool.and_self]
  · have hpower := all_toDigits s.exponent.natAbs
    have hletter : isNumeric 'e' = true := by decide
    have hsign : isNumeric (if s.exponent < 0 then '-' else '+') = true := by split <;> decide
    unfold exponential
    dsimp only
    split <;> simp only [String.toList_ofList, List.all_append, List.all_cons, List.all_nil, htake,
      hdrop, hzeros, hpoint, hpower, hletter, hsign, Bool.and_self]

theorem all_text (x : Binary64) : x.text.toList.all isNumeric = true := by
  cases x with
  | finite negative m e =>
    have hsign : (if negative = true then "-" else "").toList.all isNumeric = true := by
      cases negative <;> decide
    rw [text, String.toList_append, List.all_append, hsign, Bool.true_and]
    split
    · decide
    · exact all_write _ (all_shortest m e)
  | infinite negative => cases negative <;> decide
  | nan => decide

/-- The text of a number has no other characters. -/
theorem all_plainText (x : Binary64) : x.plainText.toList.all isNumeric = true := by
  have hrepr : ∀ n : Nat, (Nat.repr n).toList.all isNumeric = true := by
    intro n
    rw [Nat.repr, String.toList_ofList]
    exact all_toDigits n
  have hminus : ∀ n : Nat, ("-" ++ Nat.repr n).toList.all isNumeric = true := by
    intro n
    rw [String.toList_append, List.all_append, hrepr]
    decide
  unfold plainText
  split
  · rename_i i _
    cases i with
    | ofNat n => exact hrepr n
    | negSucc n => exact hminus (n + 1)
  · exact all_text x

/-- A number is written on one line. -/
theorem oneLine_plainText (x : Binary64) : OneLine x.plainText := by
  intro hmem
  cases List.all_eq_true.mp (all_plainText x) _ hmem

end Binary64

/-! ## Words of a style -/

namespace Style

/-- All words of the style are solid. -/
def SolidWords (style : Style) : Prop :=
  ∀ word ∈ style.words, Solid word

theorem solidWords_of_mem {style : Style} (h : style ∈ catalogue) : style.SolidWords := by
  have hall : ∀ style ∈ catalogue, ∀ word ∈ style.words, Solid word := by decide +kernel
  exact hall style h

variable {style : Style}

theorem SolidWords.keyword (hs : style.SolidWords) {word : String}
    (h : word ∈ style.keywords.written) : Solid word := by
  apply hs
  unfold words
  rw [List.append_assoc]
  exact List.mem_append_left _ h

/-- Words make up solid texts. -/
theorem Composed.solid (hs : style.SolidWords) {t : String} (h : style.Composed t) : Solid t := by
  have hshared : ∀ t ∈ sharedWords, Solid t := by decide
  have hgaps : ∀ gap ∈ gaps, OneLine gap := by decide
  have hnone : OneLine "" := by decide
  induction h with
  | own h => exact hs _ h
  | shared h => exact hshared _ h
  | lexeme _ h => exact Token.solid_of_isLexeme h
  | append _ _ iht ihu => exact iht.append ihu.oneLine
  | between _ hgap _ iht ihu => exact (iht.append (hgaps _ hgap)).append ihu.oneLine
  | bracketed _ ih => exact ih.oneLine.bracketed
  | subscript _ ih => exact ih.oneLine.subscript
  | noArguments => exact hnone.bracketed
  | noElements => exact hnone.subscript

end Style

theorem UpdateOp.oneLine_sign (op : UpdateOp) : OneLine op.sign := by
  unfold sign
  split <;> decide

/-! ## Expressions -/

namespace Setting

variable {s : Setting}

theorem oneLine_listed {texts : List String} (h : ∀ t ∈ texts, Solid t) :
    OneLine (Text.join ", " texts) :=
  Text.oneLine_join (by decide) fun t ht => (h t ht).oneLine

/-- The text of an expression that was read fills a line, wherever it stands. -/
theorem render_solid (hs : s.style.SolidWords) {e : Expr} (he : e.WellFormed .lexical)
    (slot : Slot) : Ensures Solid (s.render slot e) :=
  (render_composed he slot).mono fun _ h => h.solid hs

/-! ## Lines of statements -/

theorem solid_updateText {target : String} (h : Solid target) (op : UpdateOp) :
    Solid (updateText target op) := by
  have hsum := (h.append (show OneLine " = " by decide)).append h.oneLine
  exact ((hsum.append (by decide)).append op.oneLine_sign).append (by decide)

theorem renderStatement_solid (hs : s.style.SolidWords) {e : Expr} (he : e.WellFormed .lexical) :
    Ensures Solid (s.renderStatement e) := by
  have houtput : Solid s.style.keywords.output := hs.keyword (by simp [Keywords.written])
  unfold renderStatement
  split
  · exact .ok houtput
  · rename_i args _ hprinted
    have hargs := Expr.printedItems_wellFormed (Expr.printed?_wellFormed he hprinted)
    refine (Ensures.mapM fun item hitem => render_solid hs (hargs item hitem) .item).bind ?_
    intro items hitems
    exact .ok ((houtput.append (by decide)).append (oneLine_listed hitems))
  · split
    · refine (render_solid hs he.2 .whole).bind ?_
      intro text htext
      exact .ok (solid_updateText htext _)
    · exact render_solid hs he .whole

theorem renderAssignment_solid (hs : s.style.SolidWords) {a : Assignment}
    (ha : a.WellFormed .lexical) : Ensures Solid (s.renderAssignment a) := by
  have he : (Expr.assign a.pos a.target a.op a.value).WellFormed .lexical := ha
  exact render_solid hs he .whole

theorem renderUpdate_solid (hs : s.style.SolidWords) {u : Update} (hu : u.WellFormed .lexical) :
    Ensures Solid (s.renderUpdate u) := by
  refine (render_solid hs hu.2.1 .whole).bind ?_
  intro text htext
  exact .ok (solid_updateText htext _)

theorem render_oneLine (hs : s.style.SolidWords) {e : Expr} (he : e.WellFormed .lexical)
    (slot : Slot) : Ensures OneLine (s.render slot e) :=
  (render_solid hs he slot).mono fun _ h => h.oneLine

/-- The text of a part that may be missing. -/
theorem elim_oneLine (hs : s.style.SolidWords) {e : Option Expr} {missing : String}
    (hmissing : OneLine missing) (he : ∀ a ∈ e, a.WellFormed .lexical) (slot : Slot) :
    Ensures OneLine (e.elim (.ok missing) (s.render slot)) := by
  cases e with
  | none => exact .ok hmissing
  | some e => exact render_oneLine hs (he e rfl) slot

theorem oneLine_declared {d : Declaration} (hd : d.WellFormed .lexical) : OneLine d.name :=
  (Vocabulary.solid_of_lexical hd.1 (by decide)).oneLine

theorem structuredHeader_oneLine (hs : s.style.SolidWords) {init : Option ForInit}
    {test : Option Expr} {update : Option ForUpdate} (hinit : ∀ i ∈ init, i.WellFormed .lexical)
    (htest : ∀ e ∈ test, e.WellFormed .lexical)
    (hupdate : ∀ u ∈ update, u.WellFormed .lexical) :
    Ensures OneLine (s.structuredHeader init test update) := by
  have hfirst : Ensures OneLine (s.initText init) := by
    unfold initText
    split
    · rename_i d
      have hd : d.WellFormed .lexical := (hinit _ rfl).1
      refine (elim_oneLine hs (by decide) hd.2.2 .value).bind ?_
      intro value hvalue
      exact .ok (((oneLine_declared hd).append (by decide)).append hvalue)
    · rename_i a
      have ha : a.WellFormed .lexical := hinit _ rfl
      exact (renderAssignment_solid hs ha).mono fun _ h => h.oneLine
    · exact .ok (by decide)
  have hlast : Ensures OneLine (s.stepText update) := by
    unfold stepText
    split
    · rename_i u
      have hu : u.WellFormed .lexical := hupdate _ rfl
      exact (renderUpdate_solid hs hu).mono fun _ h => h.oneLine
    · rename_i e
      have he : e.WellFormed .lexical := hupdate _ rfl
      exact (renderStatement_solid hs he).mono fun _ h => h.oneLine
    · exact .ok (by decide)
  refine hfirst.bind ?_
  intro first hfirst
  refine (elim_oneLine hs (by decide) htest .whole).bind ?_
  intro middle hmiddle
  refine hlast.bind ?_
  intro last hlast
  exact .ok ((((hfirst.append (by decide)).append hmiddle).append (by decide)).append hlast)

end Setting

/-- The variable that a loop counts with is one of the program, if there is one. -/
theorem oneLine_loopVariable {test : Option Expr} {update : Option ForUpdate}
    (htest : ∀ e ∈ test, e.WellFormed .lexical)
    (hupdate : ∀ u ∈ update, u.WellFormed .lexical) : OneLine (loopVariable test update) := by
  have hvariable : ∀ {e : Expr} {n : String}, e.WellFormed .lexical → e.variable? = some n →
      OneLine n := by
    intro e n he hn
    cases e with
    | name p m =>
      obtain rfl := Option.some.inj hn
      exact (Vocabulary.solid_of_lexical he (by decide)).oneLine
    | _ => cases hn
  have htarget : ∀ {u : ForUpdate} {e : Expr}, u.WellFormed .lexical → u.target? = some e →
      e.WellFormed .lexical := by
    intro u e hu he
    unfold ForUpdate.target? at he
    split at he
    · obtain rfl := Option.some.inj he
      exact hu.2.1
    · obtain rfl := Option.some.inj he
      exact hu.2.1
    · obtain rfl := Option.some.inj he
      exact hu.2
    · cases he
  have hside : ∀ {e side : Expr}, e.WellFormed .lexical → side ∈ e.comparedSides →
      side.WellFormed .lexical := by
    intro e side he hside
    unfold Expr.comparedSides at hside
    split at hside
    · split at hside
      · rcases List.mem_pair.mp hside with rfl | rfl
        · exact he.2.1
        · exact he.2.2
      · cases hside
    · cases hside
  unfold loopVariable
  dsimp only
  cases hname : Option.or _ _ with
  | none => decide
  | some n =>
    rcases Option.or_eq_some_iff.mp hname with hchanged | ⟨-, htested⟩
    · obtain ⟨e, he, hn⟩ := Option.bind_eq_some_iff.mp hchanged
      obtain ⟨u, hu, hue⟩ := Option.bind_eq_some_iff.mp he
      exact hvariable (htarget (hupdate u hu) hue) hn
    · obtain ⟨side, hmem, hn⟩ := List.exists_of_findSome?_eq_some htested
      cases test with
      | none => cases hmem
      | some e => exact hvariable (hside (htest e rfl) hmem) hn

theorem Direction.oneLine_word (direction : Direction) : OneLine direction.word := by
  cases direction <;> decide

namespace Setting

variable {s : Setting}

theorem loopStart_oneLine (hs : s.style.SolidWords) {init : Option ForInit} {test : Option Expr}
    {update : Option ForUpdate} (hinit : ∀ i ∈ init, i.WellFormed .lexical)
    (htest : ∀ e ∈ test, e.WellFormed .lexical)
    (hupdate : ∀ u ∈ update, u.WellFormed .lexical) :
    Ensures (fun start => OneLine start.1 ∧ OneLine start.2) (s.loopStart init test update) := by
  unfold loopStart
  split
  · rename_i d
    have hd : d.WellFormed .lexical := (hinit _ rfl).1
    refine (elim_oneLine hs (by decide) hd.2.2 .whole).bind ?_
    intro value hvalue
    exact .ok ⟨oneLine_declared hd, hvalue⟩
  · rename_i a
    have ha : a.WellFormed .lexical := hinit _ rfl
    refine (render_oneLine hs ha.2.1 .whole).bind ?_
    intro name hname
    refine (render_oneLine hs ha.2.2.2 .whole).bind ?_
    intro value hvalue
    exact .ok ⟨hname, hvalue⟩
  · have hname := oneLine_loopVariable htest hupdate
    refine .ok ⟨hname, ?_⟩
    dsimp only
    split
    · decide
    · exact hname

theorem endBefore_oneLine (hs : s.style.SolidWords) {bound step : Expr}
    (hbound : bound.WellFormed .lexical) (hstep : step.WellFormed .lexical) (op : BinaryOp) :
    Ensures OneLine (s.endBefore op bound step) := by
  have hwritten : Ensures OneLine (s.writtenEnd op bound step) := by
    refine (render_oneLine hs hbound .whole).bind ?_
    intro text htext
    refine (render_oneLine hs hstep .prefixed).bind ?_
    intro stepText hstepText
    have hsign : OneLine (if op = .lt then " - " else " + ") := by split <;> decide
    exact .ok ((htext.append hsign).append hstepText)
  have hvalue : ∀ e : Expr, Ensures (fun _ => True) e.numericValue := fun _ _ _ => trivial
  refine (hvalue bound).bind fun _ _ => (hvalue step).bind fun _ _ => ?_
  split
  · split
    · exact .ok (Binary64.oneLine_plainText _)
    · exact hwritten
  · exact hwritten

theorem loopEnd_oneLine (hs : s.style.SolidWords) {test : Option Expr} {step : Expr}
    (htest : ∀ e ∈ test, e.WellFormed .lexical) (hstep : step.WellFormed .lexical)
    (name : String) (direction : Direction) :
    Ensures (fun last => OneLine last.1) (s.loopEnd test name step direction) := by
  have hnone : OneLine "" := by decide
  unfold loopEnd
  split
  · exact .ok hnone
  rename_i op bound hbound
  have hbound := loopBound?_wellFormed htest hbound
  have hat : Ensures OneLine (s.render .whole bound) := render_oneLine hs hbound .whole
  have hbefore : ∀ op, Ensures OneLine (s.endBefore op bound step) :=
    endBefore_oneLine hs hbound hstep
  split
  · exact .ok hnone
  · exact hat.bind fun _ h => .ok h
  · exact hat.bind fun _ h => .ok h
  · exact (hbefore .gt).bind fun _ h => .ok h
  · split
    · exact (hbefore .gt).bind fun _ h => .ok h
    · exact (hbefore .lt).bind fun _ h => .ok h
  · exact (hbefore .lt).bind fun _ h => .ok h

theorem countingHeader_oneLine (hs : s.style.SolidWords) (p : Pos) {init : Option ForInit}
    {test : Option Expr} {update : Option ForUpdate} (hinit : ∀ i ∈ init, i.WellFormed .lexical)
    (htest : ∀ e ∈ test, e.WellFormed .lexical)
    (hupdate : ∀ u ∈ update, u.WellFormed .lexical) :
    Ensures OneLine (s.countingHeader p init test update) := by
  refine (loopStart_oneLine hs hinit htest hupdate).bind ?_
  rintro ⟨name, start⟩ ⟨hname, hstart⟩
  have hstep := loopStep_wellFormed hupdate p name
  refine (loopEnd_oneLine hs htest hstep name _).bind ?_
  rintro ⟨last, direction⟩ hlast
  have hheader : OneLine
      (name ++ " from " ++ start ++ " " ++ direction.word ++ " " ++ last) := by
    have hfrom := (hname.append (show OneLine " from " by decide)).append hstart
    have hword := (hfrom.append (show OneLine " " by decide)).append direction.oneLine_word
    exact (hword.append (by decide)).append hlast
  have hvalue : Ensures (fun _ => True) (loopStep p update name).1.numericValue :=
    fun _ _ => trivial
  refine hvalue.bind fun _ _ => ?_
  split
  · exact .ok hheader.trim
  · refine (render_oneLine hs hstep .whole).bind ?_
    intro text htext
    exact .ok ((hheader.append (by decide)).append htext).trim

theorem forHead_solid (hs : s.style.SolidWords) (p : Pos) {init : Option ForInit}
    {test : Option Expr} {update : Option ForUpdate} (hinit : ∀ i ∈ init, i.WellFormed .lexical)
    (htest : ∀ e ∈ test, e.WellFormed .lexical)
    (hupdate : ∀ u ∈ update, u.WellFormed .lexical) :
    Ensures Solid (s.forHead p init test update) := by
  unfold forHead
  split
  · rename_i hfamily
    have hloop : Solid s.style.keywords.loop := hs.keyword (by simp [Keywords.written, hfamily])
    refine (countingHeader_oneLine hs p hinit htest hupdate).bind ?_
    intro header hheader
    exact .ok ((hloop.append (by decide)).append hheader)
  · rename_i hfamily
    have hfor : Solid s.style.keywords.forWord :=
      hs.keyword (by simp [Keywords.written, hfamily])
    refine (structuredHeader_oneLine hs hinit htest hupdate).bind ?_
    intro header hheader
    exact .ok ((hfor.append (by decide)).append hheader)

end Setting

/-! ## Lines around statements -/

namespace Style.SolidWords

variable {style : Style}

theorem branchHead (hs : style.SolidWords) {word test : String} (hword : Solid word)
    (htest : OneLine test) : Solid (style.branchHead word test) := by
  have hthen : Solid style.keywords.thenWord := hs.keyword (by simp [Keywords.written])
  exact (((hword.append (by decide)).append htest).append (by decide)).append hthen.oneLine

theorem whileHead (hs : style.SolidWords) {test : String} (htest : OneLine test) :
    Solid (style.whileHead test) := by
  unfold Style.whileHead
  split
  · rename_i hfamily
    have hloop : Solid style.keywords.loopWhile :=
      hs.keyword (by simp [Keywords.written, hfamily])
    exact (hloop.append (by decide)).append htest
  · rename_i hfamily
    have hwhile : Solid style.keywords.whileWord :=
      hs.keyword (by simp [Keywords.written, hfamily])
    have hdo : Solid style.keywords.doWord := hs.keyword (by simp [Keywords.written, hfamily])
    exact (((hwhile.append (by decide)).append htest).append (by decide)).append hdo.oneLine

/-- The lines that have no text but keywords. -/
theorem fixed (hs : style.SolidWords) :
    Solid style.whileEnd ∧ Solid style.repeatHead ∧ Solid style.forEnd := by
  unfold Style.whileEnd Style.repeatHead Style.forEnd
  cases hfamily : style.keywords.loopFamily with
  | true =>
    simp only [if_true]
    exact ⟨hs.keyword (by simp [Keywords.written, hfamily]),
      hs.keyword (by simp [Keywords.written, hfamily]),
      hs.keyword (by simp [Keywords.written, hfamily])⟩
  | false =>
    simp only [Bool.false_eq_true, if_false]
    exact ⟨hs.keyword (by simp [Keywords.written, hfamily]),
      hs.keyword (by simp [Keywords.written, hfamily]),
      hs.keyword (by simp [Keywords.written, hfamily])⟩

end Style.SolidWords

end Pseudocode
