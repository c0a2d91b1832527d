import Pseudocode.Proofs.Reader.Prefix
import Pseudocode.Proofs.Reader.Sentences
set_option autoImplicit false

/-!
# Lists of statements in a row

A statement is read alike whatever follows, as long as no `else` is ahead that was not
ahead before.  So two lists of statements, put one behind the other, are read as the
statements of the first and then those of the second.
-/

namespace Pseudocode

namespace Token

/-! ## Looking ahead stays within a statement -/

/-- Skipping subscripts either ends among the tokens `w`, or it passes them and changes the
number of open brackets alike wherever it starts. -/
theorem skipSubscripts_append {w : List Token} (hw : ∀ t ∈ w, t.kind ≠ .eof) (depth : Nat) :
    (∃ u r, ∀ rest, skipSubscripts depth (w ++ rest) = u :: (r ++ rest)) ∨
      ∃ depth', ∀ more rest,
        skipSubscripts (depth + more) (w ++ rest) = skipSubscripts (depth' + more) rest := by
  induction w generalizing depth with
  | nil => exact .inr ⟨depth, fun _ _ => rfl⟩
  | cons t w ih =>
    have ht := hw t List.mem_cons_self
    have ih := ih fun u hu => hw u (List.mem_cons_of_mem t hu)
    -- a step within brackets goes from a depth to the next one, at whatever depth it starts
    have hstep : ∀ next, (∀ more rest,
        skipSubscripts (depth + more) (t :: rest) = skipSubscripts (next + more) rest) →
        (∃ u r, ∀ rest, skipSubscripts depth (t :: w ++ rest) = u :: (r ++ rest)) ∨
        ∃ depth', ∀ more rest, skipSubscripts (depth + more) (t :: w ++ rest) =
          skipSubscripts (depth' + more) rest := by
      intro next hnext
      refine (ih next).imp ?_ ?_
      · rintro ⟨u, r, hland⟩
        exact ⟨u, r, fun rest => (hnext 0 (w ++ rest)).trans (hland rest)⟩
      · rintro ⟨depth', hpass⟩
        exact ⟨depth', fun more rest => (hnext more (w ++ rest)).trans (hpass more rest)⟩
    cases hopen : Pattern.openBracket.fits t with
    | true =>
      refine hstep (depth + 1) fun more rest => ?_
      cases hdepth : depth + more with
      | zero =>
        obtain ⟨rfl, rfl⟩ := Nat.add_eq_zero_iff.mp hdepth
        rw [skipSubscripts, if_pos hopen]
      | succ n =>
        rw [skipSubscripts, if_neg ht, if_pos hopen]
        congr 1
        omega
    | false =>
      cases depth with
      | zero =>
        refine .inl ⟨t, w, fun rest => ?_⟩
        rw [List.cons_append, skipSubscripts, hopen]
        rfl
      | succ depth =>
        have hinside : ∀ more, depth + 1 + more = (depth + more) + 1 := fun more => by omega
        cases hclose : Pattern.closeBracket.fits t with
        | true =>
          refine hstep depth fun more rest => ?_
          rw [hinside, skipSubscripts, if_neg ht, hopen, hclose]
          rfl
        | false =>
          refine hstep (depth + 1) fun more rest => ?_
          rw [hinside, skipSubscripts, if_neg ht, hopen, hclose]
          rfl

/-- Behind a name, skipping subscripts ends no later than at a token that opens none. -/
theorem skipSubscripts_enclosed {v : List Token} {s : Token} (hv : Enclosed v)
    (hs : Pattern.openBracket.fits s = false) :
    ∃ u r, ∀ rest, skipSubscripts 0 (v ++ s :: rest) = u :: (r ++ rest) := by
  obtain ⟨u, r, hland⟩ | ⟨depth, hpass⟩ := skipSubscripts_append hv.noEof 0
  · exact ⟨u, r ++ [s], fun rest => by rw [hland]; simp⟩
  · -- the brackets are balanced, so they are all closed behind `v`
    have hclose := (hpass 1 [Pattern.closeBracket.token, Pattern.comma.token]).symm.trans
      (hv.balanced 0 [Pattern.closeBracket.token, Pattern.comma.token])
    obtain rfl : depth = 0 := by
      cases depth with
      | zero => rfl
      | succ depth => cases hclose
    refine ⟨s, [], fun rest => ?_⟩
    have hskip := hpass 0 (s :: rest)
    rw [Nat.add_zero] at hskip
    rw [hskip, skipSubscripts, hs]
    rfl

/-- Empty pairs of brackets end no later than at a semicolon. -/
theorem skipEmptyPairs_semicolon {s : Token} (hs : s.text = ";") (v : List Token) :
    ∃ u r, ∀ rest, skipEmptyPairs (v ++ s :: rest) = u :: (r ++ rest) := by
  fun_induction skipEmptyPairs v with
  | case1 t u ts hpair ih =>
    obtain ⟨a, r, hskip⟩ := ih
    refine ⟨a, r, fun rest => ?_⟩
    rw [List.cons_append, List.cons_append, skipEmptyPairs, if_pos hpair]
    exact hskip rest
  | case2 t u ts hpair =>
    refine ⟨t, u :: ts ++ [s], fun rest => ?_⟩
    rw [List.cons_append, List.cons_append, skipEmptyPairs, if_neg hpair]
    simp
  | case3 ts hts =>
    obtain _ | ⟨a, _ | ⟨b, ts⟩⟩ := ts
    · refine ⟨s, [], fun rest => ?_⟩
      cases rest <;> simp [skipEmptyPairs, hs]
    · refine ⟨a, [s], fun rest => ?_⟩
      simp [skipEmptyPairs, hs]
    · exact absurd rfl (hts a b ts)

/-- Whether a declaration goes on behind a name is settled by the next semicolon. -/
theorem declares_semicolon {s : Token} (hs : Pattern.semicolon.fits s = true)
    (v rest rest' : List Token) : declares (v ++ s :: rest) = declares (v ++ s :: rest') := by
  have htext : s.text = ";" := Reading.text_of_fits hs rfl
  obtain ⟨u, r, hskip⟩ := skipEmptyPairs_semicolon htext v
  unfold declares
  rw [hskip, hskip]
  obtain _ | ⟨a, _ | ⟨b, v⟩⟩ := v
  · cases rest <;> cases rest' <;> simp [startsWithPair, htext]
  · simp [startsWithPair]
  · simp [startsWithPair]

/-! ## What may follow a statement -/

/-- The word `else` is ahead. -/
def elseAhead (ts : List Token) : Bool :=
  ts.head?.any (Pattern.keyword "else").fits

/-- The new rest goes on at all, and with an `else` only if the old one does. -/
def MayFollow (rest rest' : List Token) : Prop :=
  rest' ≠ [] ∧ (elseAhead rest' = true → elseAhead rest = true)

theorem SameHead.mayFollow {rest rest' : List Token} (h : SameHead rest rest') :
    MayFollow rest rest' := by
  obtain ⟨t, us, us', rfl, rfl⟩ := h
  exact ⟨List.cons_ne_nil t us', id⟩

/-- No name is spelled `final`. -/
def NoFinal (ts : List Token) : Prop :=
  ∀ t ∈ ts, t.kind = .identifier → t.text ≠ "final"

theorem NoFinal.of_suffix {ts us : List Token} (h : NoFinal ts) (hus : us <:+ ts) : NoFinal us :=
  fun t ht => h t (hus.subset ht)

/-- A statement in one stretch that starts with `t`: up to its semicolon the square brackets are
balanced. -/
def Stretch (t : Token) (w : List Token) : Prop :=
  ∃ v s, w = t :: (v ++ [s]) ∧ Enclosed v ∧ Pattern.semicolon.fits s = true

theorem Enclosed.tail {t : Token} {w : List Token} (h : Enclosed (t :: w))
    (ht : t.kind = .identifier) : Enclosed w := by
  refine ⟨?_, fun u hu => h.noEof u (List.mem_cons_of_mem t hu)⟩
  intro depth rest
  have hskip := h.balanced depth rest
  have hsingle := (Enclosed.single_of_kind (t := t) (by simp [ht]) (by simp [ht])).balanced depth
    (w ++ rest)
  exact hsingle.symm.trans hskip

end Token

open Token (SameHead Enclosed MayFollow NoFinal Stretch)

namespace Reading

variable {α β : Type} {t : Token} {ts us : List Token} {R : List Token → List Token → Prop}

theorem Carries.map {P : α → List Token → Prop} {Q : β → List Token → Prop} {x x' : Reading α}
    (hx : Carries P R x x' ts) {g : α → β} (hg : ∀ a w, P a w → Q (g a) w) :
    Carries Q R (x >>= fun a => Pure.pure (g a)) (x' >>= fun a => Pure.pure (g a)) ts := by
  refine Carries.bindWith hx ?_
  intro a w rest _ ha
  refine .pure ⟨fun _ _ h => h, ?_⟩
  rw [List.append_nil]
  exact hg a w ha

/-! ## Simple statements -/

theorem Carries.dimensions :
    Carries (fun _ w => Enclosed w) SameHead dimensions dimensions ts := by
  refine Carries.map (P := fun _ w => Enclosed w) ?_ fun _ _ hw => hw
  refine Carries.many (P := Part) .nil (fun _ _ _ _ hw hv => hw.2.append hv) (fun _ _ hw => hw.1)
    (fun _ _ h => h) ?_
  intro a us _ ha
  refine Carries.advance (ne_eof_of_fits ha (by decide)) ?_
  refine (Carries.expected _ (by decide)).mono ?_
  rintro b _ ⟨rfl, hb⟩
  exact ⟨List.cons_ne_nil a _, .bracket ha .nil hb⟩

theorem Carries.initialValue :
    Carries (fun _ w => Enclosed w) SameHead initialValue initialValue ts := by
  refine Carries.acceptThen (by decide) ?_ fun _ _ _ _ => .pure .nil
  intro t us _ ht
  have hsign : Enclosed [t] := .sign ht (by decide)
  refine Carries.isAt ?_
  intro u vs _
  refine Carries.ite (fun _ => ?_) fun _ => ?_
  · exact Carries.map Carries.initializer fun _ w hw => hsign.append hw.2
  · exact Carries.map Carries.expression fun _ w hw => hsign.append hw.2

theorem Carries.declaration (ht : t.kind ≠ .eof) :
    Carries (fun _ w => Stretch t w) R declaration declaration (t :: us) := by
  refine Carries.hereClosed ?_
  rintro _ _ ⟨⟩
  refine Carries.advance ht ?_
  refine Carries.bindClosed Carries.dimensions ?_
  intro typeDims w₁ rest₁ _ hw₁
  refine Carries.expect (by decide) ?_
  intro name us' _ hname
  refine Carries.bindClosed Carries.dimensions ?_
  intro nameDims w₂ rest₂ _ hw₂
  refine Carries.bindClosed Carries.initialValue ?_
  intro value w₃ rest₃ _ hw₃
  refine Carries.expect (by decide) ?_
  intro s _ _ hs
  refine .pure
    ⟨by simp, by simp, by simp, by simp, w₁ ++ ([name] ++ (w₂ ++ w₃)), s, by simp, ?_, hs⟩
  exact hw₁.append ((Enclosed.sign hname (by decide)).append (hw₂.append hw₃))

theorem Carries.target :
    Carries (fun _ w => ∃ n v, w = n :: v ∧ n.kind = .identifier ∧ Enclosed v) SameHead
      target target
      ts := by
  refine Carries.here ?_
  intro t us _
  refine Carries.expect (by decide) ?_
  intro n us' _ hn
  have hkind : n.kind = .identifier := kind_of_fits hn
  refine Carries.isAt ?_
  intro u vs _
  refine Carries.ite (fun _ => ?_) fun _ => .pure ⟨n, [], rfl, hkind, .nil⟩
  exact Carries.map Carries.subscripts fun _ v hv => ⟨n, v, rfl, hkind, hv.1⟩

theorem Carries.assignment :
    Carries (fun _ w => Stretch t w) R assignment assignment (t :: us) := by
  refine Carries.hereClosed ?_
  rintro _ _ ⟨⟩
  refine Carries.bindClosed Carries.target ?_
  rintro goal _ rest hts ⟨n, v, rfl, -, hv⟩
  cases hts
  refine Carries.currentClosed ?_
  intro u vs _
  cases hop : u.assignOp? with
  | none => exact Carries.refuse _
  | some op =>
    have hkind := (Token.assignOp?_eq_some hop).1
    refine Carries.advance (by simp [hkind]) ?_
    refine Carries.bindClosed Carries.expression ?_
    intro value w rest' _ hw
    refine Carries.expect (by decide) ?_
    intro s _ _ hs
    refine .pure ⟨by simp, by simp, by simp, by simp, v ++ u :: w, s, by simp, ?_, hs⟩
    exact hv.append (hw.2.cons (by simp [hkind]) (by simp [hkind]))

theorem Carries.updateEnd :
    Carries (fun _ w => ∃ s, w = [s] ∧ Pattern.semicolon.fits s = true) R (updateEnd true)
      (updateEnd true) ts := by
  refine Carries.expect (by decide) ?_
  intro s _ _ hs
  exact .pure ⟨s, rfl, hs⟩

theorem Carries.update :
    Carries (fun _ w => Stretch t w) R (update true) (update true) (t :: us) := by
  refine Carries.hereClosed ?_
  rintro _ _ ⟨⟩
  refine Carries.bindClosed Carries.target ?_
  rintro goal _ rest hts ⟨n, v, rfl, -, hv⟩
  cases hts
  refine Carries.currentClosed ?_
  intro u vs _
  cases hop : u.updateOp? with
  | none => exact Carries.refuse _
  | some op =>
    have hkind := (Token.updateOp?_eq_some hop).1
    refine Carries.advance (by simp [hkind]) ?_
    refine Carries.map Carries.updateEnd ?_
    rintro _ _ ⟨s, rfl, hs⟩
    refine ⟨by simp, by simp, by simp, v ++ [u], s, by simp, ?_, hs⟩
    exact hv.append (.single_of_kind (by simp [hkind]) (by simp [hkind]))

/-- A change by one that is no statement of its own. -/
theorem Carries.openUpdate :
    Carries Part SameHead (Reading.update false) (Reading.update false) ts := by
  refine Carries.here ?_
  intro t us _
  refine Carries.bind Carries.target ?_
  rintro goal _ rest - ⟨n, v, rfl, hn, hv⟩
  refine Carries.current ?_
  intro u vs _
  cases hop : u.updateOp? with
  | none => exact Carries.refuse _
  | some op =>
    have hkind := (Token.updateOp?_eq_some hop).1
    refine Carries.advance (by simp [hkind]) (.pure ⟨by simp, ?_⟩)
    refine (hv.append ?_).cons (by simp [hn]) (by simp [hn])
    exact .single_of_kind (by simp [hkind]) (by simp [hkind])

theorem Carries.leadingUpdate (ht : t.kind ≠ .eof) :
    Carries (fun _ w => w ≠ []) R (leadingUpdate true) (leadingUpdate true) (t :: us) := by
  refine Carries.hereClosed ?_
  rintro _ _ ⟨⟩
  refine Carries.advance ht ?_
  refine Carries.bindClosed Carries.target ?_
  intro goal w rest _ _
  refine Carries.map Carries.updateEnd ?_
  rintro _ _ ⟨s, rfl, -⟩
  exact ⟨by simp, by simp, by simp⟩

theorem Carries.openLeadingUpdate (ht : t.kind = .operator) :
    Carries Part SameHead (Reading.leadingUpdate false) (Reading.leadingUpdate false)
      (t :: us) := by
  refine Carries.here ?_
  rintro _ _ ⟨⟩
  refine Carries.advance (by simp [ht]) ?_
  refine Carries.bind Carries.target ?_
  rintro goal _ rest - ⟨n, v, rfl, hn, hv⟩
  refine .pure ⟨by simp, ?_⟩
  rw [List.append_nil]
  exact (hv.cons (by simp [hn]) (by simp [hn])).cons (by simp [ht]) (by simp [ht])

theorem Carries.callStatement :
    Carries (fun _ w => Stretch t w) R callStatement callStatement (t :: us) := by
  refine Carries.hereClosed ?_
  rintro _ _ ⟨⟩
  refine Carries.expect (by decide) ?_
  rintro n us' ⟨⟩ hn
  refine Carries.bindClosed (Carries.suffixes _) ?_
  intro e v rest _ hv
  refine Carries.expect (by decide) ?_
  intro s _ _ hs
  exact .pure ⟨by simp, by simp, v, s, by simp, hv, hs⟩

theorem Carries.expressionStatement (ht : t.kind = .identifier) :
    Carries (fun _ w => Stretch t w) R expressionStatement expressionStatement (t :: us) := by
  refine Carries.hereClosed ?_
  rintro _ _ ⟨⟩
  refine Carries.bindClosed Carries.expression ?_
  intro e w rest hts hw
  obtain ⟨u, v, rfl⟩ := List.exists_cons_of_ne_nil hw.1
  cases hts
  refine Carries.expect (by decide) ?_
  intro s _ _ hs
  exact .pure ⟨by simp, by simp, v, s, by simp, hw.2.tail ht, hs⟩

/-! ## Statements that start with a name -/

/-- A name alone is no statement. -/
theorem nameStatement_single {word : String} (hword : word ≠ "final") (ht : t.kind = .identifier) :
    ∃ e, nameStatement word [t] = .error e := by
  have hahead : classDeclarationAhead [t] = .ok (true, [t]) := by
    have hpeek : peek 1 [t] = .ok (t, [t]) := rfl
    unfold classDeclarationAhead
    rw [bind_of_ok hpeek, if_pos ht]
    rfl
  refine ⟨.exhausted, ?_⟩
  unfold nameStatement
  rw [bind_of_ok (finalAhead_cons hword), if_neg Bool.false_ne_true, bind_of_ok hahead, if_pos rfl]
  refine bind_of_error ?_
  unfold declaration
  rw [bind_of_ok here_cons, bind_of_ok (advance_cons (by simp [ht]))]
  rfl

/-- Whether there is anything behind the subscripts of a name decides if it can be read. -/
theorem nameStatement_of_nil {word : String} (hword : word ≠ "final") (hne : us ≠ [])
    (hdeclares : Token.declares us = false) (hskip : Token.skipSubscripts 0 us = []) :
    nameStatement word (t :: us) = .error .exhausted := by
  have hunread : unread (t :: us) = .ok (t :: us, t :: us) := rfl
  have hbehind : behindTarget (t :: us) = .error .exhausted := by
    unfold behindTarget
    rw [bind_of_ok hunread, List.drop_succ_cons, List.drop_zero, hskip]
    rfl
  have hahead : updateAhead (t :: us) = .error .exhausted := bind_of_error hbehind
  unfold nameStatement
  rw [bind_of_ok (finalAhead_cons hword), if_neg Bool.false_ne_true,
    bind_of_ok (classDeclarationAhead_cons hne), hdeclares, if_neg Bool.false_ne_true,
    bind_of_error hahead]

/-- The lookahead ends within the statement, so it leads to the same kind of statement. -/
theorem Carries.nameStatement {word : String} (hword : word ≠ "final") (ht : t.kind = .identifier) :
    Carries (fun _ w => w ≠ []) R (nameStatement word) (nameStatement word) (t :: us) := by
  intro stmt rest h
  have hne : us ≠ [] := by
    rintro rfl
    obtain ⟨e, he⟩ := nameStatement_single hword ht
    rw [he] at h
    cases h
  cases hdeclares : Token.declares us with
  | true =>
    rw [nameStatement_of_declares hword hne hdeclares] at h
    have hdeclaration : Carries (fun _ w => Stretch t w) R
        (Reading.declaration >>= fun d => Pure.pure (Stmt.declaration d))
        (Reading.declaration >>= fun d => Pure.pure (Stmt.declaration d)) (t :: us) :=
      Carries.map (Carries.declaration (by simp [ht])) fun _ _ hw => hw
    obtain ⟨_, hw, ⟨v, s, rfl, -, hs⟩, hread⟩ := hdeclaration stmt rest h
    refine ⟨_, hw, List.cons_ne_nil t _, ?_⟩
    intro rest' hR
    have hrest := hread rest' hR
    simp only [List.cons_append, List.append_assoc, List.nil_append] at hw hrest ⊢
    obtain rfl := (List.cons.inj hw).2
    rw [Token.declares_semicolon hs v rest rest'] at hdeclares
    rw [nameStatement_of_declares hword (by simp) hdeclares]
    exact hrest
  | false =>
    obtain hskip | ⟨u, behind, hskip⟩ :
        Token.skipSubscripts 0 us = [] ∨ ∃ u behind, Token.skipSubscripts 0 us = u :: behind := by
      cases Token.skipSubscripts 0 us with
      | nil => exact .inl rfl
      | cons u behind => exact .inr ⟨u, behind, rfl⟩
    · rw [nameStatement_of_nil hword hne hdeclares hskip] at h
      cases h
    rw [nameStatement_eq hword hdeclares hskip] at h
    obtain ⟨_, hw, ⟨v, s, rfl, hv, hs⟩, hread⟩ := Carries.ite (Q := fun _ w => Stretch t w)
      (fun _ => Carries.map (Carries.update (R := R)) fun _ _ hw => hw)
      (fun _ => Carries.ite (fun _ => Carries.callStatement) fun _ =>
        Carries.ite (fun _ => Carries.map Carries.assignment fun _ _ hw => hw)
          fun _ => Carries.expressionStatement ht) stmt rest h
    refine ⟨_, hw, List.cons_ne_nil t _, ?_⟩
    intro rest' hR
    have hrest := hread rest' hR
    simp only [List.cons_append, List.append_assoc, List.nil_append] at hw hrest ⊢
    obtain rfl := (List.cons.inj hw).2
    have hopen : Pattern.openBracket.fits s = false := by
      simp [Pattern.fits, Pattern.openBracket, kind_of_fits hs, Pattern.semicolon]
    obtain ⟨u', r, hland⟩ := Token.skipSubscripts_enclosed hv hopen
    obtain ⟨rfl, -⟩ := List.cons.inj ((hland rest).symm.trans hskip)
    have hhead : (v ++ s :: rest').head? = (v ++ s :: rest).head? := by cases v <;> rfl
    rw [Token.declares_semicolon hs v rest rest'] at hdeclares
    rw [nameStatement_eq hword hdeclares (hland rest'), hhead]
    exact hrest

/-! ## Statements with parts -/

theorem Carries.condition (word : String) :
    Carries (fun _ w => w ≠ []) R (condition word) (condition word) ts := by
  refine Carries.expect (by decide) ?_
  intro a _ _ _
  refine Carries.bindClosed Carries.expression ?_
  intro test w _ _ _
  refine Carries.expect (by decide) ?_
  intro b _ _ _
  exact .pure ⟨by simp, by simp⟩

/-- What `inner` reads, `inner'` reads in front of all that may follow a statement. -/
def CarriesStatement (inner inner' : Reading Stmt) : Prop :=
  ∀ ts, NoFinal ts → Carries (fun _ w => w ≠ []) MayFollow inner inner' ts

variable {inner inner' : Reading Stmt}

theorem Carries.statementsWith (hin : CarriesStatement inner inner') (hts : NoFinal ts) :
    Carries (fun _ _ => True) SameHead (statementsWith inner) (statementsWith inner') ts := by
  refine Carries.many (P := fun _ w => w ≠ []) trivial (fun _ _ _ _ _ _ => trivial)
    (fun _ _ hw => hw) (fun _ _ h => h.mayFollow) ?_
  intro t us hus _
  exact hin _ (hts.of_suffix hus)

theorem Carries.blockWith (hin : CarriesStatement inner inner') (hts : NoFinal ts) :
    Carries (fun _ w => w ≠ []) R (blockWith inner) (blockWith inner') ts := by
  refine Carries.hereClosed ?_
  rintro t us rfl
  refine Carries.expect (by decide) ?_
  rintro a _ ⟨⟩ _
  refine Carries.bindClosed (Carries.statementsWith hin (hts.of_suffix (List.suffix_cons _ _))) ?_
  intro body w _ _ _
  refine Carries.expect (by decide) ?_
  intro b _ _ _
  exact .pure ⟨by simp, by simp, by simp⟩

/-- An `else` behind a statement is taken, if there is one, and none is added. -/
theorem Carries.elseWith (hin : CarriesStatement inner inner') (hts : NoFinal ts) (p : Pos)
    (test : Expr) (consequent : Stmt) :
    Carries (fun _ v => ∀ rest rest', MayFollow rest rest' → MayFollow (v ++ rest) (v ++ rest'))
      MayFollow (accept (.keyword "else") >>= fun r => if r.isSome = true then
        inner >>= fun s => Pure.pure (Stmt.ifElse p test consequent (some s))
        else Pure.pure (.ifElse p test consequent none))
      (accept (.keyword "else") >>= fun r => if r.isSome = true then
        inner' >>= fun s => Pure.pure (Stmt.ifElse p test consequent (some s))
        else Pure.pure (.ifElse p test consequent none)) ts := by
  intro stmt rest h
  obtain ⟨r, mid, haccept, hnext⟩ := bind_eq_ok_iff.mp h
  obtain ⟨-, ⟨t, rfl, rfl, hfits, -⟩ | ⟨rfl, rfl, t, us, rfl, hfits⟩⟩ :=
    (Tracks.accept (φ := id) (p := .keyword "else") (by decide)).of_ok haccept
  · have halternative : Carries (fun _ w => w ≠ []) MayFollow
        (inner >>= fun s => Pure.pure (Stmt.ifElse p test consequent (some s)))
        (inner' >>= fun s => Pure.pure (Stmt.ifElse p test consequent (some s))) mid :=
      Carries.map (hin _ (hts.of_suffix (List.suffix_cons _ _))) fun _ _ hw => hw
    obtain ⟨w, rfl, -, hread⟩ := halternative stmt rest hnext
    refine ⟨t :: w, rfl, ?_, ?_⟩
    · exact fun rest rest' _ => (Token.sameHead_append (List.cons_ne_nil t w) rest rest').mayFollow
    · intro rest' hR
      rw [List.cons_append, bind_of_ok (accept_of_fits hfits (by decide))]
      exact hread rest' hR
  · cases hnext
    refine ⟨[], rfl, fun _ _ h => h, ?_⟩
    rintro rest' ⟨hne, helse⟩
    obtain ⟨u, vs, rfl⟩ := List.exists_cons_of_ne_nil hne
    have hnone : (Pattern.keyword "else").fits u = false := by
      cases hu : (Pattern.keyword "else").fits u with
      | false => rfl
      | true =>
        have hold : (Pattern.keyword "else").fits t = true := helse hu
        rw [hfits] at hold
        cases hold
    rw [List.nil_append, bind_of_ok (accept_of_not_fits hnone)]
    rfl

theorem Carries.ifElseWith (hin : CarriesStatement inner inner') (hts : NoFinal ts) :
    Carries (fun _ w => w ≠ []) MayFollow (ifElseWith inner) (ifElseWith inner') ts := by
  refine Carries.hereClosed ?_
  rintro t us rfl
  refine Carries.expect (by decide) ?_
  rintro a _ ⟨⟩ _
  have hus : NoFinal us := hts.of_suffix (List.suffix_cons _ _)
  refine Carries.bindWith (Carries.condition (R := fun _ _ => True) "if") ?_
  rintro test w rest rfl -
  refine Carries.bindWith (hin _ (hus.of_suffix (List.suffix_append w rest))) ?_
  rintro consequent v rest' rfl -
  refine (Carries.elseWith hin ?_ _ test consequent).mono ?_
  · exact (hus.of_suffix (List.suffix_append w _)).of_suffix (List.suffix_append v rest')
  · intro stmt u hu
    exact ⟨hu, fun _ _ _ => trivial, by simp, by simp⟩

theorem Carries.whileLoopWith (hin : CarriesStatement inner inner') (hts : NoFinal ts) :
    Carries (fun _ w => w ≠ []) MayFollow (whileLoopWith inner) (whileLoopWith inner') ts := by
  refine Carries.hereClosed ?_
  rintro t us rfl
  refine Carries.expect (by decide) ?_
  rintro a _ ⟨⟩ _
  have hus : NoFinal us := hts.of_suffix (List.suffix_cons _ _)
  refine Carries.bindWith (Carries.condition (R := fun _ _ => True) "while") ?_
  rintro test w rest rfl -
  refine Carries.map (hin _ (hus.of_suffix (List.suffix_append w rest))) ?_
  intro body v _
  exact ⟨fun _ _ _ => trivial, by simp, by simp⟩

theorem Carries.doWhileLoopWith (hin : CarriesStatement inner inner') (hts : NoFinal ts) :
    Carries (fun _ w => w ≠ []) R (doWhileLoopWith inner) (doWhileLoopWith inner') ts := by
  refine Carries.hereClosed ?_
  rintro t us rfl
  refine Carries.expect (by decide) ?_
  rintro a _ ⟨⟩ _
  refine Carries.bindWith (hin _ (hts.of_suffix (List.suffix_cons _ _))) ?_
  intro body w rest _ _
  refine Carries.expect (by decide) ?_
  intro k _ _ _
  refine Carries.bindWith (Carries.condition (R := fun _ _ => True) "while") ?_
  intro test v rest' _ _
  refine Carries.expect (by decide) ?_
  intro s _ _ _
  refine .pure ⟨fun _ _ _ => trivial, fun rest rest' _ => ?_, by simp, by simp⟩
  exact (Token.sameHead_append (List.cons_ne_nil k _) rest rest').mayFollow

/-! ## Counting loops -/

theorem Carries.forInit : Carries (fun _ _ => True) SameHead forInit forInit ts := by
  refine Carries.acceptThen (by decide) (fun _ _ _ _ => .pure trivial) ?_
  intro t us _ _
  refine Carries.lookWith (g := Token.isType) ⟨_, rfl⟩ (fun _ _ => rfl) ?_
  rintro _ _ ⟨⟩
  refine Carries.ite (fun htype => ?_) fun _ => ?_
  · have heof : t.kind ≠ .eof := by
      intro hkind
      simp [Token.isType, hkind] at htype
    refine Carries.map (Carries.declaration heof) fun _ w _ => ?_
    exact ⟨fun _ _ h => h.append w, trivial⟩
  · exact Carries.map Carries.assignment fun _ w _ => ⟨fun _ _ h => h.append w, trivial⟩

theorem Carries.forTest : Carries (fun _ _ => True) SameHead forTest forTest ts := by
  refine Carries.acceptThen (by decide) (fun _ _ _ _ => .pure trivial) ?_
  intro t us _ _
  refine Carries.bind Carries.expression ?_
  intro test w _ _ _
  exact Carries.expect (by decide) fun _ _ _ _ => .pure trivial

/-- Both rests start with the same token, which opens no subscript. -/
def PastSubscripts (rest rest' : List Token) : Prop :=
  ∃ s us us', rest = s :: us ∧ rest' = s :: us' ∧ Pattern.openBracket.fits s = false

theorem PastSubscripts.sameHead {rest rest' : List Token} (h : PastSubscripts rest rest') :
    SameHead rest rest' := by
  obtain ⟨s, us, us', hrest, hrest', -⟩ := h
  exact ⟨s, us, us', hrest, hrest'⟩

theorem Carries.weaken {P : α → List Token → Prop} {S : List Token → List Token → Prop}
    {x x' : Reading α} (h : Carries P S x x' ts) (hS : ∀ rest rest', R rest rest' → S rest rest') :
    Carries P R x x' ts := by
  intro a rest hx
  obtain ⟨w, hw, ha, hread⟩ := h a rest hx
  exact ⟨w, hw, ha, fun rest' hR => hread rest' (hS _ _ hR)⟩

/-- What a name is followed by behind its subscripts is the same for both rests. -/
theorem Carries.updateAhead {x x' y y' : Reading ForUpdate} (ht : t.kind = .identifier)
    (hx : Carries Part PastSubscripts x x' (t :: us))
    (hy : Carries Part PastSubscripts y y' (t :: us)) :
    Carries Part PastSubscripts (updateAhead >>= fun b => if b = true then x else y)
      (updateAhead >>= fun b => if b = true then x' else y') (t :: us) := by
  intro step rest h
  obtain ⟨b, mid, hahead, hnext⟩ := bind_eq_ok_iff.mp h
  obtain rfl := ((Tracks.updateAhead (φ := id) (by simp [ht])).of_ok hahead).2
  obtain ⟨w, hw, hpart, hread⟩ :=
    Carries.ite (c := b = true) (fun _ => hx) (fun _ => hy) step rest hnext
  refine ⟨w, hw, hpart, ?_⟩
  intro rest' hR
  obtain ⟨u, v, rfl⟩ := List.exists_cons_of_ne_nil hpart.1
  rw [List.cons_append] at hw
  obtain ⟨rfl, rfl⟩ := List.cons.inj hw
  have hrest := hread rest' hR
  obtain ⟨s, vs, vs', rfl, rfl, hs⟩ := hR
  obtain ⟨u', r, hland⟩ := Token.skipSubscripts_enclosed (hpart.2.tail ht) hs
  rw [updateAhead_cons (hland vs)] at hahead
  cases hahead
  rw [List.cons_append, bind_of_ok (updateAhead_cons (hland vs'))]
  exact hrest

theorem Carries.forUpdate : Carries Part PastSubscripts forUpdate forUpdate ts := by
  refine Carries.lookWith (g := id) ⟨_, rfl⟩ (fun _ _ => rfl) ?_
  intro t us _
  have hpart : ∀ {x : Reading ForUpdate}, Carries Part PastSubscripts x x (t :: us) →
      Carries (fun b v => (∀ rest rest', PastSubscripts rest rest' →
        SameHead (v ++ rest) (v ++ rest')) ∧ Part b v) PastSubscripts x x (t :: us) :=
    fun hx => hx.mono fun _ w hw => ⟨fun _ _ h => h.sameHead.append w, hw⟩
  have hexpression : Carries Part PastSubscripts
      (Reading.expression >>= fun e => Pure.pure (ForUpdate.expression e))
      (Reading.expression >>= fun e => Pure.pure (ForUpdate.expression e)) (t :: us) :=
    Carries.map (Carries.expression.weaken fun _ _ => PastSubscripts.sameHead) fun _ _ hw => hw
  refine hpart ?_
  refine Carries.ite (fun hop => ?_) fun _ => Carries.ite (fun hname => ?_) fun _ => hexpression
  · obtain ⟨op, hop⟩ := Option.isSome_iff_exists.mp hop
    have hkind := (Token.updateOp?_eq_some hop).1
    have hupdate : Carries Part SameHead (Reading.leadingUpdate false)
        (Reading.leadingUpdate false) (t :: us) := Carries.openLeadingUpdate hkind
    exact Carries.map (hupdate.weaken fun _ _ => PastSubscripts.sameHead) fun _ _ hw => hw
  · refine Carries.updateAhead hname ?_ hexpression
    exact Carries.map (Carries.openUpdate.weaken fun _ _ => PastSubscripts.sameHead)
      fun _ _ hw => hw

theorem Carries.forStep : Carries (fun _ _ => True) SameHead forStep forStep ts := by
  refine Carries.acceptThen (by decide) (fun _ _ _ _ => .pure trivial) ?_
  intro t us _ _
  refine Carries.bindWith Carries.forUpdate ?_
  intro step w _ _ _
  refine Carries.expect (by decide) ?_
  intro b _ _ hb
  refine .pure ⟨fun _ _ _ => ⟨b, _, _, rfl, rfl, ?_⟩, trivial⟩
  simp [Pattern.fits, Pattern.openBracket, kind_of_fits hb, Pattern.closeParen]

theorem Carries.forLoopWith (hin : CarriesStatement inner inner') (hts : NoFinal ts) :
    Carries (fun _ w => w ≠ []) MayFollow (forLoopWith inner) (forLoopWith inner') ts := by
  refine Carries.hereClosed ?_
  rintro t us rfl
  refine Carries.expect (by decide) ?_
  rintro a us' ⟨⟩ _
  refine Carries.expect (by decide) ?_
  rintro b us'' rfl _
  refine Carries.bindClosed Carries.forInit ?_
  rintro init w₁ rest₁ rfl -
  refine Carries.bindClosed Carries.forTest ?_
  rintro test w₂ rest₂ rfl -
  refine Carries.bindClosed Carries.forStep ?_
  rintro step w₃ rest₃ rfl -
  refine Carries.map (hin _ (hts.of_suffix ?_)) ?_
  · refine (List.suffix_append w₃ rest₃).trans ((List.suffix_append w₂ _).trans ?_)
    exact (List.suffix_append w₁ _).trans ((List.suffix_cons b _).trans (List.suffix_cons t _))
  · intro body v hv
    exact ⟨hv, by simp [hv], by simp [hv], by simp, by simp⟩

/-! ## Any statement -/

theorem Carries.keywordStatementWith (hin : CarriesStatement inner inner') (ht : t.kind = .keyword)
    (hts : NoFinal (t :: us)) (word : String) :
    Carries (fun _ w => w ≠ []) MayFollow (keywordStatementWith inner word)
      (keywordStatementWith inner' word) (t :: us) := by
  refine Carries.ite (fun _ => Carries.ifElseWith hin hts) fun _ =>
    Carries.ite (fun _ => Carries.whileLoopWith hin hts) fun _ =>
    Carries.ite (fun _ => Carries.forLoopWith hin hts) fun _ =>
    Carries.ite (fun _ => Carries.doWhileLoopWith hin hts) fun _ =>
    Carries.ite (fun _ => ?_) fun _ => Carries.refuse _
  refine Carries.map (Carries.declaration (by simp [ht])) ?_
  rintro d _ ⟨v, s, rfl, -, -⟩
  exact List.cons_ne_nil t _

theorem Carries.statementWith (hin : CarriesStatement inner inner') (hts : NoFinal ts) :
    Carries (fun _ w => w ≠ []) MayFollow (statementWith inner) (statementWith inner') ts := by
  refine Carries.currentClosed ?_
  rintro t us rfl
  refine Carries.mono (P := fun _ w => w ≠ []) ?_ fun _ w hw => ⟨hw, hw⟩
  refine Carries.ite (fun hkeyword => Carries.keywordStatementWith hin hkeyword hts t.text) fun _ =>
    Carries.ite (fun _ => Carries.map (Carries.blockWith hin hts) fun _ _ hw => hw) fun _ =>
    Carries.ite (fun hop => ?_) fun _ =>
    Carries.ite (fun hname => ?_) fun _ => Carries.refuse _
  · obtain ⟨op, hop⟩ := Option.isSome_iff_exists.mp hop
    have hkind := (Token.updateOp?_eq_some hop).1
    exact Carries.map (Carries.leadingUpdate (by simp [hkind])) fun _ _ hw => hw
  · exact Carries.nameStatement (hts t List.mem_cons_self hname) hname

theorem statementWithin_carries (clock : List Token) :
    CarriesStatement (statementWithin clock) statement := by
  induction clock with
  | nil => exact fun _ _ => Carries.exhausted
  | cons c clock ih =>
    intro ts hts
    rw [statement_eq]
    exact Carries.statementWith ih hts

/-- A statement is read alike in front of all that may follow it. -/
theorem statement_carries : CarriesStatement statement statement :=
  fun ts => statementWithin_carries ts ts

/-! ## Lists of statements -/

/-- Where an item is wanted, it is read first. -/
theorem exists_item_of_many {wanted : Token → Bool} {x : Reading α} {as : List α}
    {rest : List Token} (ht : wanted t = true) (h : many wanted x (t :: us) = .ok (as, rest)) :
    ∃ r, x (t :: us) = .ok r := by
  obtain ⟨_, mid, hcurrent, h⟩ := bind_eq_ok_iff.mp h
  cases hcurrent
  rw [if_pos ht] at h
  obtain ⟨a, mid, ha, -⟩ := bind_eq_ok_iff.mp h
  exact ⟨_, ha⟩

/-- What was taken in front of the end is all that stands there. -/
theorem eq_of_append_eof {e : Token} {w vs : List Token} (hts : ∀ u ∈ ts, u.kind ≠ .eof)
    (ht : t.kind = .eof) (h : ts ++ [e] = w ++ t :: vs) : w = ts ∧ t = e ∧ vs = [] := by
  obtain ⟨v, rfl, hend⟩ | ⟨v, rfl, hend⟩ := List.append_eq_append_iff.mp h
  · obtain _ | ⟨u, v⟩ := v
    · cases hend
      exact ⟨List.append_nil ts, rfl, rfl⟩
    · simp at hend
  · obtain _ | ⟨u, v⟩ := v
    · cases hend
      exact ⟨(List.append_nil w).symm, rfl, rfl⟩
    · cases hend
      exact absurd ht (hts t (by simp))

/-- Statements that were read up to the end are read alike when more follows, and then
reading goes on with that. -/
theorem manyWithin_statement {e : Token} {body : List Stmt} {rest : List Token}
    (he : e.kind = .eof) (hts : ∀ u ∈ ts, u.kind ≠ .eof) (hfinal : NoFinal ts)
    (h : many (·.kind != .eof) statement (ts ++ [e]) = .ok (body, rest)) {rest' : List Token}
    (hrest' : MayFollow [e] rest') (clock : List Token) (hclock : ts.length ≤ clock.length) :
    ∃ clock' : List Token, clock.length ≤ ts.length + clock'.length ∧
      manyWithin (·.kind != .eof) statement clock (ts ++ rest') =
        (manyWithin (·.kind != .eof) statement clock' rest').map fun r => (body ++ r.1, r.2) := by
  have hfinal' : NoFinal (ts ++ [e]) := by
    refine List.forall_mem_append.mpr ⟨hfinal, ?_⟩
    simp [he]
  have hitem : ∀ u vs, u :: vs <:+ ts ++ [e] → (u.kind != .eof) = true →
      Carries (fun _ w => w ≠ []) MayFollow statement statement (u :: vs) :=
    fun u vs hus _ => statement_carries _ (hfinal'.of_suffix hus)
  obtain ⟨w, hw, -, ⟨t, vs, rfl, ht⟩, hreads⟩ := Carries.manyWithin (L := fun _ _ => True)
    trivial (fun _ _ _ _ _ _ => trivial) (fun _ _ hw => hw) (fun _ _ h => h.mayFollow)
    hitem _ _ (List.suffix_refl _) h
  obtain ⟨rfl, rfl, rfl⟩ := eq_of_append_eof hts (by simpa using ht) hw
  exact hreads rest' hrest' clock hclock

/-- Two lists of statements in a row are read as one list. -/
theorem many_statement_append {ts us : List Token} {e e' e'' : Token} {body body' : List Stmt}
    {rest rest' : List Token} (he : e.kind = .eof) (he' : e'.kind = .eof) (he'' : e''.kind = .eof)
    (hts : ∀ u ∈ ts, u.kind ≠ .eof) (hus : ∀ u ∈ us, u.kind ≠ .eof) (hfinal : NoFinal (ts ++ us))
    (h : many (·.kind != .eof) statement (ts ++ [e]) = .ok (body, rest))
    (h' : many (·.kind != .eof) statement (us ++ [e']) = .ok (body', rest')) :
    many (·.kind != .eof) statement (ts ++ (us ++ [e''])) = .ok (body ++ body', [e'']) := by
  obtain ⟨hfinal, hfinal'⟩ := List.forall_mem_append.mp hfinal
  have hend : Token.elseAhead [e''] = false := by
    simp [Token.elseAhead, Pattern.fits, Pattern.keyword, he'']
  have hahead : Token.elseAhead (us ++ [e'']) = false := by
    cases us with
    | nil => exact hend
    | cons u us =>
      have hwanted : (u.kind != .eof) = true := by simpa using hus u List.mem_cons_self
      obtain ⟨r, hread⟩ := exists_item_of_many hwanted h'
      cases helse : (Pattern.keyword "else").fits u with
      | false => exact helse
      | true =>
        obtain ⟨stop, herror⟩ :=
          statement_refused (t := u) (by simp [Token.startsOther, helse]) (us ++ [e'])
        rw [List.append_eq, herror] at hread
        cases hread
  have hmayFollow : ∀ vs, vs ≠ [] → Token.elseAhead vs = false → ∀ old, MayFollow old vs := by
    intro vs hne hvs old
    refine ⟨hne, fun htrue => ?_⟩
    rw [hvs] at htrue
    cases htrue
  obtain ⟨clock, hclock, hread⟩ := manyWithin_statement he hts hfinal h
    (hmayFollow (us ++ [e'']) (by simp) hahead _) (ts ++ (us ++ [e''])) (by simp)
  simp only [List.length_append, List.length_singleton] at hclock
  obtain ⟨clock', hclock', hread'⟩ := manyWithin_statement he' hus hfinal' h'
    (hmayFollow [e''] (by simp) hend _) clock (by omega)
  obtain _ | ⟨c, clock'⟩ := clock'
  · simp only [List.length_nil] at hclock'
    omega
  have hlast : manyWithin (·.kind != .eof) statement (c :: clock') [e''] = .ok ([], [e'']) := by
    rw [manyWithin, bind_of_ok current_cons, if_neg (by simp [he''])]
    rfl
  unfold many
  rw [hread, hread', hlast]
  simp [Except.map]

end Reading

/-! ## Programs -/

namespace Token

/-- The tokens behind the modifiers start neither a class nor a method, so they are read as a
list of statements. -/
def Listed (ts : List Token) : Prop :=
  (ts.dropWhile isModifier).head?.any (Pattern.keyword "class").fits = false ∧
    Reading.atMethod (ts.dropWhile isModifier) = .ok (false, ts.dropWhile isModifier)

theorem isModifier_of_eof {e : Token} (h : e.kind = .eof) : e.isModifier = false := by
  simp [isModifier, h]

/-- Modifiers end where something else starts. -/
theorem dropWhile_isModifier_append (ts : List Token) {t : Token} (ht : t.isModifier = false)
    (us : List Token) :
    (ts ++ t :: us).dropWhile isModifier = ts.dropWhile isModifier ++ t :: us := by
  induction ts with
  | nil => simp [ht]
  | cons u ts ih =>
    cases hu : u.isModifier with
    | true => simpa [hu] using ih
    | false => simp [hu]

end Token

namespace Reading

variable {t : Token} {ts us : List Token}

theorem skipModifiers_append (ts : List Token) (ht : t.isModifier = false) (us : List Token) :
    skipModifiers (ts ++ t :: us) = .ok ((), (ts ++ t :: us).dropWhile Token.isModifier) := by
  have hcollect : ∃ found, collect (fun t => if t.isModifier then some () else none)
      (ts ++ t :: us) = .ok (found, (ts ++ t :: us).dropWhile Token.isModifier) := by
    induction ts with
    | nil => exact ⟨[], by simp [collect, ht]⟩
    | cons u ts ih =>
      obtain ⟨found, hfound⟩ := ih
      cases hu : u.isModifier with
      | true => exact ⟨() :: found, by simp [collect, hu, hfound]⟩
      | false => exact ⟨[], by simp [collect, hu]⟩
  obtain ⟨found, hfound⟩ := hcollect
  unfold skipModifiers
  rw [bind_of_ok hfound]
  rfl

/-- A list of statements is the body of a program. -/
theorem programBody_of_many {body : List Stmt} {rest : List Token}
    (hmodifier : t.isModifier = false) (hclosed : Token.Closed (t :: us))
    (h : many (·.kind != .eof) statement (t :: us) = .ok (body, rest)) :
    programBody (t :: us) = .ok (body, rest) := by
  have hclass : (Pattern.keyword "class").fits t = false ∧
      atMethod (t :: us) = .ok (false, t :: us) := by
    by_cases heof : t.kind = .eof
    · refine ⟨by simp [Pattern.fits, Pattern.keyword, heof], ?_⟩
      unfold atMethod
      rw [bind_of_ok current_cons, if_neg (by simp [Pattern.fits, Pattern.keyword, heof]),
        if_neg (by simp [Token.isType, heof])]
      rfl
    · obtain ⟨r, hread⟩ := exists_item_of_many (by simpa using heof) h
      refine ⟨?_, atMethod_of_statement hread hmodifier hclosed⟩
      cases hfits : (Pattern.keyword "class").fits t with
      | false => rfl
      | true =>
        obtain ⟨stop, herror⟩ := statement_refused (t := t) (by simp [Token.startsOther, hfits]) us
        rw [herror] at hread
        cases hread
  unfold programBody
  rw [bind_of_ok (isAt_cons _), hclass.1, if_neg Bool.false_ne_true, bind_of_ok hclass.2,
    if_neg Bool.false_ne_true]
  exact h

end Reading

namespace Program

open Reading

variable {ts : List Token} {e : Token}

/-- The statements of a program that is no class and no method. -/
theorem many_of_ofTokens {program : Program} (he : e.kind = .eof)
    (hlisted : Token.Listed (ts ++ [e])) (h : ofTokens (ts ++ [e]) = .ok program) :
    ∃ rest, many (·.kind != .eof) statement (ts.dropWhile Token.isModifier ++ [e]) =
      .ok (program.body, rest) := by
  obtain ⟨⟨program', rest⟩, hread, rfl⟩ :
      ∃ r, Reading.program (ts ++ [e]) = .ok r ∧ r.1 = program := by
    unfold ofTokens at h
    cases hread : Reading.program (ts ++ [e]) with
    | error stop => simp [hread, Except.map] at h
    | ok r =>
      rw [hread] at h
      exact ⟨r, rfl, Except.ok.inj h⟩
  have hdrop := Token.dropWhile_isModifier_append ts (Token.isModifier_of_eof he) []
  obtain ⟨hclass, hmethod⟩ := hlisted
  obtain ⟨p, us₁, hhere, h₁⟩ := bind_eq_ok_iff.mp hread
  obtain rfl := ((Tracks.here (φ := id)).of_ok hhere).2
  obtain ⟨_, us₂, hmods, h₂⟩ := bind_eq_ok_iff.mp h₁
  obtain rfl := dropWhile_of_skipModifiers hmods
  obtain ⟨body, us₃, hbody, h₃⟩ := bind_eq_ok_iff.mp h₂
  obtain ⟨atEnd, us₄, -, h₄⟩ := bind_eq_ok_iff.mp h₃
  obtain ⟨isClass, us₅, hisClass, hbody⟩ := bind_eq_ok_iff.mp hbody
  obtain ⟨-, rfl, t, us, hcons, rfl⟩ := (Tracks.isAt (φ := id) _).of_ok hisClass
  rw [hcons] at hclass hbody hmethod
  rw [show (Pattern.keyword "class").fits t = false from hclass, if_neg Bool.false_ne_true,
    bind_of_ok hmethod, if_neg Bool.false_ne_true, ← hcons, hdrop] at hbody
  split at h₄
  · cases h₄
    exact ⟨_, hbody⟩
  · cases us₄ <;> cases h₄

/-- Statements up to the end make a program. -/
theorem ofTokens_of_many {body : List Stmt} (he : e.kind = .eof)
    (h : many (·.kind != .eof) statement (ts.dropWhile Token.isModifier ++ [e]) = .ok (body, [e])) :
    ∃ program, ofTokens (ts ++ [e]) = .ok program ∧ program.body = body := by
  have hmodifier := Token.isModifier_of_eof he
  have hdrop := Token.dropWhile_isModifier_append ts hmodifier []
  have hbody : programBody (ts.dropWhile Token.isModifier ++ [e]) = .ok (body, [e]) := by
    cases hcons : ts.dropWhile Token.isModifier with
    | nil =>
      rw [hcons] at h
      exact programBody_of_many hmodifier ⟨e, rfl, he⟩ h
    | cons t us =>
      rw [hcons] at h
      have ht : t.isModifier = false := by
        have hhead := List.head?_dropWhile_not Token.isModifier ts
        rw [hcons] at hhead
        simpa using hhead
      exact programBody_of_many ht ⟨e, List.getLast?_concat (l := t :: us), he⟩ h
  obtain ⟨u, us, hus⟩ : ∃ u us, ts ++ [e] = u :: us := by
    cases ts with
    | nil => exact ⟨e, [], rfl⟩
    | cons u us => exact ⟨u, us ++ [e], rfl⟩
  have hskip := skipModifiers_append ts hmodifier []
  rw [hdrop] at hskip
  have hend : Pattern.eof.fits e = true := by simp [Pattern.fits, Pattern.eof, Pattern.any, he]
  refine ⟨⟨u.pos, body⟩, ?_, rfl⟩
  unfold ofTokens Reading.program
  rw [hus, bind_of_ok here_cons, ← hus, bind_of_ok hskip, bind_of_ok hbody,
    bind_of_ok (isAt_cons _), hend]
  rfl

/-- Two lists of statements of which each makes a program, put one behind the other, make the
program with the statements of both. -/
theorem ofTokens_append {ts us : List Token} {p q r : Pos} {first second : Program}
    (hts : ∀ t ∈ ts, t.kind ≠ .eof) (hus : ∀ t ∈ us, t.kind ≠ .eof)
    (hfinal : Token.NoFinal (ts ++ us))
    (hfirst : ofTokens (ts ++ [.eof p]) = .ok first) (hlisted : Token.Listed (ts ++ [.eof p]))
    (hsecond : ofTokens (us ++ [.eof q]) = .ok second) (hlisted' : Token.Listed (us ++ [.eof q]))
    (hmodifier : ∀ t ∈ us.head?, t.isModifier = false) :
    ∃ program, ofTokens (ts ++ us ++ [.eof r]) = .ok program ∧
      program.body = first.body ++ second.body := by
  obtain ⟨rest, hread⟩ := many_of_ofTokens rfl hlisted hfirst
  obtain ⟨rest', hread'⟩ := many_of_ofTokens rfl hlisted' hsecond
  have hstart : us.dropWhile Token.isModifier = us := by
    cases us with
    | nil => rfl
    | cons u us => simp [hmodifier u rfl]
  have hdrop : (ts ++ us).dropWhile Token.isModifier = ts.dropWhile Token.isModifier ++ us := by
    cases us with
    | nil => simp
    | cons u us => exact Token.dropWhile_isModifier_append ts (hmodifier u rfl) us
  have hsub : ∀ t ∈ ts.dropWhile Token.isModifier, t ∈ ts := fun t ht =>
    (List.dropWhile_suffix _).subset ht
  rw [hstart] at hread'
  have hend : (Token.eof r).kind = .eof := rfl
  have hnames : Token.NoFinal (ts.dropWhile Token.isModifier ++ us) :=
    List.forall_mem_append.mpr ⟨fun t ht => hfinal t (by simp [hsub t ht]),
      fun t ht => hfinal t (by simp [ht])⟩
  have hboth := many_statement_append rfl rfl hend (fun t ht => hts t (hsub t ht)) hus hnames
    hread hread'
  rw [← List.append_assoc, ← hdrop] at hboth
  exact ofTokens_of_many rfl hboth

/-- The tokens of `static if (a[0]) b++;`, a statement behind which an `else` might follow. -/
def guardedUpdate : List Token :=
  [⟨.keyword, "static", ⟨1, 1⟩⟩, ⟨.keyword, "if", ⟨1, 8⟩⟩, ⟨.paren, "(", ⟨1, 11⟩⟩,
    ⟨.identifier, "a", ⟨1, 12⟩⟩, ⟨.bracket, "[", ⟨1, 13⟩⟩, ⟨.number, "0", ⟨1, 14⟩⟩,
    ⟨.bracket, "]", ⟨1, 15⟩⟩, ⟨.paren, ")", ⟨1, 16⟩⟩, ⟨.identifier, "b", ⟨1, 18⟩⟩,
    ⟨.operator, "++", ⟨1, 19⟩⟩, ⟨.semicolon, ";", ⟨1, 21⟩⟩]

/-- The tokens of `c[1] = d;` on the next line. -/
def elementAssignment : List Token :=
  [⟨.identifier, "c", ⟨2, 1⟩⟩, ⟨.bracket, "[", ⟨2, 2⟩⟩, ⟨.number, "1", ⟨2, 3⟩⟩,
    ⟨.bracket, "]", ⟨2, 4⟩⟩, ⟨.operator, "=", ⟨2, 6⟩⟩, ⟨.identifier, "d", ⟨2, 8⟩⟩,
    ⟨.semicolon, ";", ⟨2, 9⟩⟩]

theorem ofTokens_append_guardedUpdate :
    ∃ program, ofTokens (guardedUpdate ++ elementAssignment ++ [.eof ⟨2, 10⟩]) = .ok program ∧
      program.body =
        [.ifElse ⟨1, 8⟩ (.index ⟨1, 12⟩ (.name ⟨1, 12⟩ "a") [.literal ⟨1, 14⟩ "0"])
          (.update ⟨⟨1, 18⟩, .name ⟨1, 18⟩ "b", .increment⟩) none,
        .assignment ⟨⟨2, 1⟩, .index ⟨2, 1⟩ (.name ⟨2, 1⟩ "c") [.literal ⟨2, 3⟩ "1"], .set,
          .name ⟨2, 8⟩ "d"⟩] := by
  have hfinal : Token.NoFinal (guardedUpdate ++ elementAssignment) := by
    unfold Token.NoFinal
    decide
  exact ofTokens_append (p := ⟨1, 22⟩) (q := ⟨2, 10⟩) (by decide) (by decide) hfinal
    rfl ⟨rfl, rfl⟩ rfl ⟨rfl, rfl⟩ (by decide)

end Program

end Pseudocode
