import Pseudocode.Proofs.Reader.Expression
import Pseudocode.Reader.Program
set_option autoImplicit false

/-!
# Readings of statements and programs meet their specification

Looking ahead takes nothing away.  A statement takes at least one token, so a list
of statements ends with the tokens; a program ends at `eof`.
-/

namespace Pseudocode

open Token (Closed Remains)

variable {φ : Pos → Pos} {V : Vocabulary} {ts : List Token}

/-! ## Looking ahead -/

namespace Token

/-- What is left behind subscripts. -/
theorem remains_skipSubscripts (depth : Nat) (ts : List Token) :
    Remains ts (skipSubscripts depth ts) := by
  induction ts generalizing depth with
  | nil => cases depth <;> exact .refl []
  | cons t ts ih =>
    cases depth with
    | zero =>
      unfold skipSubscripts
      split
      · rename_i hopen
        exact (Remains.tail (Reading.ne_eof_of_fits hopen (by decide))).trans (ih 1)
      · exact .refl _
    | succ depth =>
      unfold skipSubscripts
      split
      · exact .refl _
      · rename_i heof
        split
        · exact (Remains.tail heof).trans (ih _)
        · split
          · exact (Remains.tail heof).trans (ih _)
          · exact (Remains.tail heof).trans (ih _)

theorem skipSubscripts_move (depth : Nat) (ts : List Token) :
    skipSubscripts depth (move φ ts) = move φ (skipSubscripts depth ts) := by
  induction ts generalizing depth with
  | nil => cases depth <;> rfl
  | cons t ts ih =>
    have hkind : (move φ t).kind = t.kind := rfl
    have hfits : ∀ p : Pattern, p.fits (move φ t) = p.fits t := fun _ => rfl
    cases depth with
    | zero =>
      simp only [move_cons, skipSubscripts, hfits, ih]
      split <;> rfl
    | succ depth =>
      simp only [move_cons, skipSubscripts, hkind, hfits, ih]
      split
      · rfl
      · split
        · rfl
        · split <;> rfl

theorem startsWithPair_move (ts : List Token) :
    startsWithPair (move φ ts) = startsWithPair ts := by
  match ts with
  | [] | [_] | _ :: _ :: _ => rfl

theorem skipEmptyPairs_move (ts : List Token) :
    skipEmptyPairs (move φ ts) = move φ (skipEmptyPairs ts) := by
  fun_induction skipEmptyPairs ts with
  | case1 t u ts h ih =>
    have h' : (move φ t).text = "[" ∧ (move φ u).text = "]" := h
    rw [move_cons, move_cons, skipEmptyPairs, if_pos h', ih]
  | case2 t u ts h =>
    have h' : ¬ ((move φ t).text = "[" ∧ (move φ u).text = "]") := h
    rw [move_cons, move_cons, skipEmptyPairs, if_neg h']
  | case3 ts h =>
    cases ts with
    | nil => rfl
    | cons t ts =>
      cases ts with
      | nil => rfl
      | cons u ts => exact (h t u ts rfl).elim

end Token

namespace Reading

variable {t : Token} {us : List Token}

/-- Behind a token other than `eof` there always is another one. -/
theorem Tracks.behindTarget (ht : t.kind ≠ .eof) :
    Tracks φ V (fun _ rest => rest = t :: us) behindTarget behindTarget (t :: us) := by
  refine Tracks.bind Tracks.unread ?_
  intro vs rest _ h
  obtain ⟨rfl, rfl⟩ := h
  rw [drop_move, Token.skipSubscripts_move]
  cases hskip : Token.skipSubscripts 0 ((t :: us).drop 1) with
  | nil =>
    refine Tracks.exhausted fun hclosed => ?_
    have hbehind : Closed us := hclosed.tail ht
    have hleft := (Token.remains_skipSubscripts 0 us).closed hbehind
    rw [List.drop_one, List.tail_cons] at hskip
    rw [hskip] at hleft
    exact Token.not_closed_nil hleft
  | cons u vs => exact Tracks.pure rfl rfl

theorem Tracks.updateAhead (ht : t.kind ≠ .eof) :
    Tracks φ V (fun _ rest => rest = t :: us) updateAhead updateAhead (t :: us) := by
  refine Tracks.bind (Tracks.behindTarget ht) ?_
  intro u rest _ h
  subst h
  exact Tracks.pure rfl rfl

theorem Tracks.assignmentAhead (ht : t.kind ≠ .eof) :
    Tracks φ V (fun _ rest => rest = t :: us) assignmentAhead assignmentAhead (t :: us) := by
  refine Tracks.bind (Tracks.behindTarget ht) ?_
  intro u rest _ h
  subst h
  exact Tracks.pure rfl rfl

theorem Tracks.callAhead : Tracks φ V (fun _ rest => rest = ts) callAhead callAhead ts := by
  refine Tracks.peekThen 1 fun u => ?_
  exact Tracks.pure rfl rfl

theorem Tracks.classDeclarationAhead :
    Tracks φ V (fun _ rest => rest = ts) classDeclarationAhead classDeclarationAhead ts := by
  refine Tracks.peekThen 1 fun u => ?_
  refine Tracks.ite Iff.rfl (fun _ => Tracks.pure rfl rfl) (fun _ => ?_)
  refine Tracks.bind Tracks.unread ?_
  intro vs rest _ h
  obtain ⟨rfl, rfl⟩ := h
  refine Tracks.pure ?_ rfl
  rw [drop_move, Token.startsWithPair_move, Token.skipEmptyPairs_move, head?_move]
  cases (Token.skipEmptyPairs (rest.drop 1)).head? <;> rfl

theorem Tracks.atType :
    Tracks φ V (fun b rest => rest = ts ∧ ∀ t us, ts = t :: us → b = t.isType) atType atType
      ts := by
  refine Tracks.currentThen ?_
  rintro t us rfl -
  refine Tracks.pure rfl ⟨rfl, ?_⟩
  intro u vs heq
  rw [(List.cons.inj heq).1]

theorem Tracks.atMethod : Tracks φ V (fun _ rest => rest = ts) atMethod atMethod ts := by
  refine Tracks.currentThen fun t _ _ _ => ?_
  refine Tracks.ite Iff.rfl (fun _ => Tracks.pure rfl rfl)
    fun _ => Tracks.ite Iff.rfl (fun _ => ?_) (fun _ => Tracks.pure rfl rfl)
  refine Tracks.peekThen 1 fun u => ?_
  refine Tracks.peekThen 2 fun v => ?_
  exact Tracks.pure rfl rfl

theorem Tracks.skipModifiers : Tracks φ V (fun _ _ => True) skipModifiers skipModifiers ts := by
  refine Tracks.bind (Tracks.collect (P := fun _ => True) ?_ ?_ ?_) ?_
  · intro t
    have hmoved : (move φ t).isModifier = t.isModifier := rfl
    rw [hmoved]
    split <;> rfl
  · intro t heof
    simp [Token.isModifier, heof]
  · intro t a _
    trivial
  · intro _ rest _ _
    exact Tracks.pure rfl trivial

theorem Tracks.finalAhead (word : String) :
    Tracks φ V (fun _ rest => rest = ts) (finalAhead word) (finalAhead word) ts := by
  refine Tracks.peekThen 1 fun u => ?_
  refine Tracks.peekThen 2 fun v => ?_
  exact Tracks.pure rfl rfl

/-! ## Simple statements -/

/-- Empty pairs of brackets. -/
theorem Tracks.dimensions : Tracks φ V (fun _ _ => True) dimensions dimensions ts := by
  refine Tracks.bind (Tracks.many (P := fun _ => True) (fun _ => rfl) ?_) ?_
  · intro t us _ ht
    refine Tracks.takeThen (ne_eof_of_fits ht (by decide)) ?_
    refine (Tracks.expect _ (by decide)).mono ?_
    intro _ rest hrest _
    exact ⟨hrest.length_le, trivial⟩
  · intro pairs rest _ _
    exact Tracks.pure (by simp) trivial

theorem Tracks.initialValue :
    Tracks φ V (fun r _ => ∀ e ∈ r, e.WellFormed V) initialValue initialValue ts := by
  refine Tracks.acceptThen (by simp [Pattern.operator]) ?_ ?_
  · intro t us heq _
    subst heq
    refine Tracks.bind (Tracks.isAt _) ?_
    intro b rest _ h
    obtain ⟨rfl, -⟩ := h
    refine Tracks.ite Iff.rfl (fun _ => ?_) (fun _ => ?_)
    · refine Tracks.bind Tracks.initializer ?_
      intro e _ _ h
      exact Tracks.pure rfl (by simpa using h.2)
    · refine Tracks.bind Tracks.expression ?_
      intro e _ _ h
      exact Tracks.pure rfl (by simpa using h.2)
  · intro t us _ _
    exact Tracks.pure rfl (by simp)

/-- The type of a declaration is the text of its first token. -/
theorem Tracks.declaration :
    Tracks φ V (fun d rest => rest.length < ts.length ∧ d.WellFormed V ∧
        ∀ t us, ts = t :: us → d.typeName = t.text)
      declaration declaration ts := by
  refine Tracks.hereThen fun p => ?_
  refine Tracks.bind Tracks.advance ?_
  intro type rest₁ hrest₁ h
  obtain ⟨htype, us, rfl, -⟩ := h
  refine Tracks.bind Tracks.dimensions ?_
  intro typeDims rest₂ hrest₂ _
  refine Tracks.expectThen (by decide) ?_
  rintro name rest₃ rfl - hname
  refine Tracks.bind Tracks.dimensions ?_
  intro nameDims rest₄ hrest₄ _
  refine Tracks.bind Tracks.initialValue ?_
  intro value rest₅ hrest₅ hvalue
  refine Tracks.bind (Tracks.expect _ (by decide)) ?_
  intro _ rest₆ hrest₆ _
  have hle := (hrest₁.trans hrest₂).length_le
  have hle' := (hrest₄.trans (hrest₅.trans hrest₆)).length_le
  simp only [List.length_cons] at hle
  refine Tracks.pure rfl ⟨by simp only [List.length_cons]; omega, ⟨hname, ⟨_, htype⟩, hvalue⟩, ?_⟩
  intro t vs heq
  rw [(List.cons.inj heq).1]

theorem Tracks.target :
    Tracks φ V (fun e rest => rest.length < ts.length ∧ e.isTarget = true ∧ e.WellFormed V)
      target target ts := by
  refine Tracks.hereThen fun p => ?_
  refine Tracks.expectThen (by decide) ?_
  rintro name us rfl - hname
  refine Tracks.bind (Tracks.isAt _) ?_
  intro b rest _ h
  obtain ⟨rfl, t, vs, rfl, rfl⟩ := h
  simp only [List.length_cons]
  refine Tracks.ite Iff.rfl (fun ht => ?_) (fun _ => ?_)
  · rw [subscripts_eq]
    refine Tracks.bind (Tracks.subscriptsWith (Nested.tracksBelow_nested _) (Nat.le_refl _)) ?_
    intro indices rest hrest h
    obtain ⟨hindices, hfirst⟩ := h
    obtain ⟨hne, hlen⟩ := hfirst t vs rfl ht
    refine Tracks.pure (by simp) ⟨by omega, rfl, ?_⟩
    simp only [Expr.WellFormed, Expr.allWellFormed_iff]
    exact ⟨hname, hne, hindices⟩
  · exact Tracks.pure rfl ⟨by simp, rfl, hname⟩

theorem Tracks.assignment :
    Tracks φ V (fun a rest => rest.length < ts.length ∧ a.WellFormed V) assignment assignment
      ts := by
  refine Tracks.hereThen fun p => ?_
  refine Tracks.bind Tracks.target ?_
  intro goal rest₁ _ h
  obtain ⟨hlen, htarget, hgoal⟩ := h
  refine Tracks.currentThen ?_
  rintro t us rfl -
  have hmoved : (move φ t).assignOp? = t.assignOp? := rfl
  rw [hmoved]
  cases hop : t.assignOp? with
  | none => exact Tracks.refuse _
  | some op =>
    obtain ⟨hkind, hmem⟩ := Token.assignOp?_eq_some hop
    refine Tracks.takeThen (by simp [hkind]) ?_
    refine Tracks.bind Tracks.expression ?_
    intro value rest₃ hrest₃ h
    refine Tracks.bind (Tracks.expect _ (by decide)) ?_
    intro _ rest₄ hrest₄ _
    have hle := (hrest₃.trans hrest₄).length_le
    simp only [List.length_cons] at hlen
    exact Tracks.pure rfl ⟨by omega, htarget, hgoal, hmem, h.2⟩

theorem Tracks.updateEnd (closed : Bool) :
    Tracks φ V (fun _ _ => True) (updateEnd closed) (updateEnd closed) ts := by
  refine Tracks.ite Iff.rfl (fun _ => ?_) (fun _ => Tracks.pure rfl trivial)
  refine Tracks.bind (Tracks.expect _ (by decide)) ?_
  intro _ _ _ _
  exact Tracks.pure rfl trivial

theorem Tracks.update (closed : Bool) :
    Tracks φ V (fun u rest => rest.length < ts.length ∧ u.WellFormed V) (update closed)
      (update closed) ts := by
  refine Tracks.hereThen fun p => ?_
  refine Tracks.bind Tracks.target ?_
  intro goal rest₁ _ h
  obtain ⟨hlen, htarget, hgoal⟩ := h
  refine Tracks.currentThen ?_
  rintro t us rfl -
  have hmoved : (move φ t).updateOp? = t.updateOp? := rfl
  rw [hmoved]
  cases hop : t.updateOp? with
  | none => exact Tracks.refuse _
  | some op =>
    obtain ⟨hkind, hknown⟩ := Token.updateOp?_eq_some hop
    refine Tracks.takeThen (by simp [hkind]) ?_
    refine Tracks.bind (Tracks.updateEnd closed) ?_
    intro _ rest₃ hrest₃ _
    have hle := hrest₃.length_le
    simp only [List.length_cons] at hlen
    exact Tracks.pure rfl ⟨by omega, htarget, hgoal, hknown⟩

/-- An update with its operator in front, where there is one. -/
theorem Tracks.leadingUpdate (closed : Bool) {t : Token} {us : List Token}
    (ht : t.updateOp?.isSome = true) :
    Tracks φ V (fun u rest => rest.length < (t :: us).length ∧ u.WellFormed V)
      (leadingUpdate closed) (leadingUpdate closed) (t :: us) := by
  obtain ⟨op, hop⟩ := Option.isSome_iff_exists.mp ht
  have hread : UpdateOp.ofSymbol t.text = op := by
    rw [UpdateOp.ofSymbol, (Token.operator?_eq_some hop).2]
    rfl
  obtain ⟨hkind, hknown⟩ := Token.updateOp?_eq_some hop
  refine Tracks.hereThen fun p => ?_
  refine Tracks.takeThen (by simp [hkind]) ?_
  refine Tracks.bind Tracks.target ?_
  intro goal rest₁ _ h
  obtain ⟨hlen, htarget, hgoal⟩ := h
  refine Tracks.bind (Tracks.updateEnd closed) ?_
  intro _ rest₂ hrest₂ _
  have hle := hrest₂.length_le
  refine Tracks.pure rfl ⟨by simp only [List.length_cons]; omega, htarget, hgoal, ?_⟩
  simp only [hread]
  exact hknown

theorem Tracks.callStatement :
    Tracks φ V (fun s rest => rest.length < ts.length ∧ s.WellFormed V) callStatement
      callStatement ts := by
  refine Tracks.hereThen fun p => ?_
  refine Tracks.expectThen (by decide) ?_
  rintro name us rfl - hname
  rw [suffixes_eq, suffixes_eq]
  refine Tracks.bind
    (Tracks.suffixesWith (Nested.tracksBelow_nested _) (Nat.le_refl _) (.name p name.text)) ?_
  intro e rest₁ hrest₁ he
  refine Tracks.bind (Tracks.expect _ (by decide)) ?_
  intro _ rest₂ hrest₂ _
  have hle := (hrest₁.trans hrest₂).length_le
  exact Tracks.pure rfl ⟨by simp only [List.length_cons]; omega, he hname⟩

theorem Tracks.expressionStatement :
    Tracks φ V (fun s rest => rest.length < ts.length ∧ s.WellFormed V) expressionStatement
      expressionStatement ts := by
  refine Tracks.hereThen fun p => ?_
  refine Tracks.bind Tracks.expression ?_
  intro e rest₁ _ h
  refine Tracks.bind (Tracks.expect _ (by decide)) ?_
  intro _ rest₂ hrest₂ _
  have hle := hrest₂.length_le
  exact Tracks.pure rfl ⟨by omega, h.2⟩

/-! ## Statements with parts -/

theorem Tracks.condition (word : String) :
    Tracks φ V (fun e rest => rest.length < ts.length ∧ e.WellFormed V) (condition word)
      (condition word) ts := by
  refine Tracks.expectThen (by decide) ?_
  rintro t us rfl - -
  refine Tracks.bind Tracks.expression ?_
  intro test rest _ h
  refine Tracks.bind (Tracks.expect _ (by decide)) ?_
  intro _ rest₁ hrest₁ _
  have hle := hrest₁.length_le
  exact Tracks.pure rfl ⟨by simp only [List.length_cons]; omega, h.2⟩

/-- On lists of fewer than `n` tokens the reading for what is nested in a statement
meets its specification. -/
def StmtTracksBelow (φ : Pos → Pos) (V : Vocabulary) (inner inner' : Reading Stmt) (n : Nat) :
    Prop :=
  ∀ us : List Token, us.length < n →
    Tracks φ V (fun s rest => rest.length < us.length ∧ s.WellFormed V) inner inner' us

variable {inner inner' : Reading Stmt} {n : Nat}

/-- Statements up to a token that ends them; no statement starts with `eof`. -/
theorem Tracks.statements (hin : StmtTracksBelow φ V inner inner' n) (hts : ts.length < n)
    {wanted : Token → Bool} (hwanted : ∀ t, wanted (move φ t) = wanted t) :
    Tracks φ V (fun ss _ => ∀ s ∈ ss, s.WellFormed V) (Reading.many wanted inner)
      (Reading.many wanted inner') ts := by
  refine (Tracks.many (P := fun s => s.WellFormed V) hwanted ?_).mono ?_
  · intro t us hus _
    have hle := hus.length_le
    refine (hin (t :: us) (by omega)).mono ?_
    intro s rest _ h
    exact ⟨Nat.le_of_lt_succ h.1, h.2⟩
  · intro ss rest _ h
    exact h.1

theorem Tracks.blockWith (hin : StmtTracksBelow φ V inner inner' n) (hts : ts.length ≤ n) :
    Tracks φ V (fun b rest => rest.length < ts.length ∧ ∀ s ∈ b.2, s.WellFormed V)
      (blockWith inner) (blockWith inner') ts := by
  refine Tracks.hereThen fun p => ?_
  refine Tracks.expectThen (by decide) ?_
  rintro t us rfl - -
  refine Tracks.bind (Tracks.statements hin (Nat.lt_of_succ_le hts) (fun _ => rfl)) ?_
  intro body rest hrest hbody
  refine Tracks.bind (Tracks.expect _ (by decide)) ?_
  intro _ rest₁ hrest₁ _
  have hle := (hrest.trans hrest₁).length_le
  exact Tracks.pure rfl ⟨by simp only [List.length_cons]; omega, hbody⟩

theorem Tracks.ifElseWith (hin : StmtTracksBelow φ V inner inner' n) (hts : ts.length ≤ n) :
    Tracks φ V (fun s rest => rest.length < ts.length ∧ s.WellFormed V) (ifElseWith inner)
      (ifElseWith inner') ts := by
  refine Tracks.hereThen fun p => ?_
  refine Tracks.expectThen (by simp [Pattern.keyword]) ?_
  rintro t us rfl - -
  simp only [List.length_cons] at hts ⊢
  refine Tracks.bind (Tracks.condition _) ?_
  intro test rest _ h
  obtain ⟨hlen, htest⟩ := h
  refine Tracks.bind (hin rest (by omega)) ?_
  intro consequent rest₁ _ h
  obtain ⟨hlen₁, hconsequent⟩ := h
  refine Tracks.acceptThen (by simp [Pattern.keyword]) ?_ ?_
  · intro u vs heq _
    subst heq
    simp only [List.length_cons] at hlen₁
    refine Tracks.bind (hin vs (by omega)) ?_
    intro alternate rest₂ _ h
    refine Tracks.pure ?_ ⟨by omega, htest, hconsequent, ?_⟩
    · rfl
    · simpa using h.2
  · intro u vs _ _
    exact Tracks.pure rfl ⟨by omega, htest, hconsequent, by simp⟩

theorem Tracks.whileLoopWith (hin : StmtTracksBelow φ V inner inner' n) (hts : ts.length ≤ n) :
    Tracks φ V (fun s rest => rest.length < ts.length ∧ s.WellFormed V) (whileLoopWith inner)
      (whileLoopWith inner') ts := by
  refine Tracks.hereThen fun p => ?_
  refine Tracks.expectThen (by simp [Pattern.keyword]) ?_
  rintro t us rfl - -
  simp only [List.length_cons] at hts ⊢
  refine Tracks.bind (Tracks.condition _) ?_
  intro test rest _ h
  obtain ⟨hlen, htest⟩ := h
  refine Tracks.bind (hin rest (by omega)) ?_
  intro body rest₁ _ h
  exact Tracks.pure rfl ⟨by omega, htest, h.2⟩

theorem Tracks.doWhileLoopWith (hin : StmtTracksBelow φ V inner inner' n) (hts : ts.length ≤ n) :
    Tracks φ V (fun s rest => rest.length < ts.length ∧ s.WellFormed V) (doWhileLoopWith inner)
      (doWhileLoopWith inner') ts := by
  refine Tracks.hereThen fun p => ?_
  refine Tracks.expectThen (by simp [Pattern.keyword]) ?_
  rintro t us rfl - -
  simp only [List.length_cons] at hts ⊢
  refine Tracks.bind (hin us (by omega)) ?_
  intro body rest _ h
  obtain ⟨hlen, hbody⟩ := h
  refine Tracks.bind (Tracks.expect _ (by simp [Pattern.keyword])) ?_
  intro _ rest₁ hrest₁ _
  refine Tracks.bind (Tracks.condition _) ?_
  intro test rest₂ hrest₂ h
  refine Tracks.bind (Tracks.expect _ (by decide)) ?_
  intro _ rest₃ hrest₃ _
  have hle := (hrest₁.trans (hrest₂.trans hrest₃)).length_le
  exact Tracks.pure rfl ⟨by omega, hbody, h.2⟩

/-! ## Counting loops -/

theorem Tracks.forInit :
    Tracks φ V (fun r _ => ∀ i ∈ r, i.WellFormed V) forInit forInit ts := by
  refine Tracks.acceptThen (by decide) ?_ ?_
  · intro t us _ _
    exact Tracks.pure rfl (by simp)
  · intro t us heq _
    subst heq
    refine Tracks.bind Tracks.atType ?_
    intro b rest _ h
    obtain ⟨rfl, hb⟩ := h
    obtain rfl := hb t us rfl
    refine Tracks.ite Iff.rfl (fun htype => ?_) (fun _ => ?_)
    · refine Tracks.bind Tracks.declaration ?_
      intro d _ _ h
      obtain ⟨-, hd, hname⟩ := h
      refine Tracks.pure rfl ?_
      intro i hi
      obtain rfl := Option.some.inj hi
      refine ⟨hd, ?_⟩
      rw [hname t us rfl]
      simpa [Token.isType] using (Bool.and_eq_true_iff.mp htype).2
    · refine Tracks.bind Tracks.assignment ?_
      intro a _ _ h
      refine Tracks.pure rfl ?_
      intro i hi
      obtain rfl := Option.some.inj hi
      exact h.2

theorem Tracks.forTest :
    Tracks φ V (fun r _ => ∀ e ∈ r, e.WellFormed V) forTest forTest ts := by
  refine Tracks.acceptThen (by decide) ?_ ?_
  · intro t us _ _
    exact Tracks.pure rfl (by simp)
  · intro t us _ _
    refine Tracks.bind Tracks.expression ?_
    intro test _ _ h
    refine Tracks.bind (Tracks.expect _ (by decide)) ?_
    intro _ _ _ _
    exact Tracks.pure rfl (by simpa using h.2)

theorem Tracks.forUpdate :
    Tracks φ V (fun u _ => u.WellFormed V) forUpdate forUpdate ts := by
  have hexpression : ∀ us : List Token, Tracks φ V (fun u _ => u.WellFormed V)
      (do return ForUpdate.expression (← Reading.expression))
      (do return ForUpdate.expression (← Reading.expression)) us := by
    intro us
    refine Tracks.bind Tracks.expression ?_
    intro e _ _ h
    exact Tracks.pure rfl h.2
  refine Tracks.currentThen ?_
  rintro t us rfl -
  refine Tracks.ite Iff.rfl (fun hop => ?_)
    fun _ => Tracks.ite Iff.rfl (fun hident => ?_) (fun _ => hexpression _)
  · refine Tracks.bind (Tracks.leadingUpdate false hop) ?_
    intro u _ _ h
    exact Tracks.pure rfl h.2
  · refine Tracks.bind (Tracks.updateAhead (by simp [hident])) ?_
    intro b rest _ h
    subst h
    refine Tracks.ite Iff.rfl (fun _ => ?_) (fun _ => hexpression _)
    refine Tracks.bind (Tracks.update false) ?_
    intro u _ _ h
    exact Tracks.pure rfl h.2

theorem Tracks.forStep :
    Tracks φ V (fun r _ => ∀ u ∈ r, u.WellFormed V) forStep forStep ts := by
  refine Tracks.acceptThen (by decide) ?_ ?_
  · intro t us _ _
    exact Tracks.pure rfl (by simp)
  · intro t us _ _
    refine Tracks.bind Tracks.forUpdate ?_
    intro step _ _ h
    refine Tracks.bind (Tracks.expect _ (by decide)) ?_
    intro _ _ _ _
    exact Tracks.pure rfl (by simpa using h)

theorem Tracks.forLoopWith (hin : StmtTracksBelow φ V inner inner' n) (hts : ts.length ≤ n) :
    Tracks φ V (fun s rest => rest.length < ts.length ∧ s.WellFormed V) (forLoopWith inner)
      (forLoopWith inner') ts := by
  refine Tracks.hereThen fun p => ?_
  refine Tracks.expectThen (by simp [Pattern.keyword]) ?_
  rintro t us rfl - -
  simp only [List.length_cons] at hts ⊢
  refine Tracks.bind (Tracks.expect _ (by decide)) ?_
  intro _ rest₁ hrest₁ _
  refine Tracks.bind Tracks.forInit ?_
  intro init rest₂ hrest₂ hinit
  refine Tracks.bind Tracks.forTest ?_
  intro test rest₃ hrest₃ htest
  refine Tracks.bind Tracks.forStep ?_
  intro step rest₄ hrest₄ hstep
  have hle := (hrest₁.trans (hrest₂.trans (hrest₃.trans hrest₄))).length_le
  refine Tracks.bind (hin rest₄ (by omega)) ?_
  intro body rest₅ _ h
  exact Tracks.pure rfl ⟨by omega, hinit, htest, hstep, h.2⟩

/-! ## Any statement -/

theorem Tracks.keywordStatementWith (hin : StmtTracksBelow φ V inner inner' n)
    (hts : ts.length ≤ n) (word : String) :
    Tracks φ V (fun s rest => rest.length < ts.length ∧ s.WellFormed V)
      (keywordStatementWith inner word) (keywordStatementWith inner' word) ts := by
  refine Tracks.ite Iff.rfl (fun _ => Tracks.ifElseWith hin hts)
    fun _ => Tracks.ite Iff.rfl (fun _ => Tracks.whileLoopWith hin hts)
    fun _ => Tracks.ite Iff.rfl (fun _ => Tracks.forLoopWith hin hts)
    fun _ => Tracks.ite Iff.rfl (fun _ => Tracks.doWhileLoopWith hin hts)
    fun _ => Tracks.ite Iff.rfl (fun _ => ?_) (fun _ => Tracks.refuse _)
  refine Tracks.bind Tracks.declaration ?_
  intro d rest _ h
  exact Tracks.pure rfl ⟨h.1, h.2.1⟩

/-- A statement that starts with a name.  Looking ahead cannot run out of tokens, since
the token at hand is not `eof`. -/
theorem Tracks.nameStatement {t : Token} {us : List Token} (ht : t.kind = .identifier)
    (word : String) :
    Tracks φ V (fun s rest => rest.length < (t :: us).length ∧ s.WellFormed V)
      (nameStatement word) (nameStatement word) (t :: us) := by
  have heof : t.kind ≠ .eof := by simp [ht]
  have hdeclaration : ∀ vs : List Token, Tracks φ V
      (fun s rest => rest.length < vs.length ∧ s.WellFormed V)
      (do return Stmt.declaration (← Reading.declaration))
      (do return Stmt.declaration (← Reading.declaration)) vs := by
    intro vs
    refine Tracks.bind Tracks.declaration ?_
    intro d rest _ h
    exact Tracks.pure rfl ⟨h.1, h.2.1⟩
  refine Tracks.bind (Tracks.finalAhead word) ?_
  intro isFinal rest _ h
  subst h
  refine Tracks.ite Iff.rfl (fun _ => ?_) (fun _ => ?_)
  · refine Tracks.takeThen heof ?_
    refine (hdeclaration _).mono ?_
    intro s rest _ h
    exact ⟨Nat.lt_succ_of_lt h.1, h.2⟩
  refine Tracks.bind Tracks.classDeclarationAhead ?_
  intro isDeclaration rest _ h
  subst h
  refine Tracks.ite Iff.rfl (fun _ => hdeclaration _) (fun _ => ?_)
  refine Tracks.bind (Tracks.updateAhead heof) ?_
  intro isUpdate rest _ h
  subst h
  refine Tracks.ite Iff.rfl (fun _ => ?_) (fun _ => ?_)
  · refine Tracks.bind (Tracks.update true) ?_
    intro u rest _ h
    exact Tracks.pure rfl h
  refine Tracks.bind Tracks.callAhead ?_
  intro isCall rest _ h
  subst h
  refine Tracks.ite Iff.rfl (fun _ => Tracks.callStatement) (fun _ => ?_)
  refine Tracks.bind (Tracks.assignmentAhead heof) ?_
  intro isAssignment rest _ h
  subst h
  refine Tracks.ite Iff.rfl (fun _ => ?_) (fun _ => Tracks.expressionStatement)
  refine Tracks.bind Tracks.assignment ?_
  intro a rest _ h
  exact Tracks.pure rfl h

theorem Tracks.statementWith (hin : StmtTracksBelow φ V inner inner' n) (hts : ts.length ≤ n) :
    Tracks φ V (fun s rest => rest.length < ts.length ∧ s.WellFormed V) (statementWith inner)
      (statementWith inner') ts := by
  refine Tracks.currentThen ?_
  rintro t us rfl -
  refine Tracks.ite Iff.rfl (fun _ => Tracks.keywordStatementWith hin hts t.text)
    fun _ => Tracks.ite Iff.rfl (fun _ => ?_) fun _ => Tracks.ite Iff.rfl (fun hop => ?_)
    fun _ => Tracks.ite Iff.rfl (fun hident => Tracks.nameStatement hident t.text)
    fun _ => Tracks.refuse _
  · refine Tracks.bind (Tracks.blockWith hin hts) ?_
    intro b rest _ h
    obtain ⟨p, body⟩ := b
    refine Tracks.pure ?_ ⟨h.1, Stmt.allWellFormed_iff.mpr h.2⟩
    exact congrArg (Stmt.block (φ p)) (Stmt.moveAll_eq φ body).symm
  · refine Tracks.bind (Tracks.leadingUpdate true hop) ?_
    intro u rest _ h
    exact Tracks.pure rfl h

theorem statementWithin_nil (clock : List Token) :
    statementWithin clock [] = .error .exhausted := by
  cases clock <;> rfl

/-- Clocks that are at least as long as the list all lead to the same end. -/
theorem stmtTracksBelow_statementWithin (clock : List Token) :
    ∀ (clock' : List Token) (m : Nat), m ≤ clock.length → m ≤ clock'.length →
      StmtTracksBelow φ V (statementWithin clock) (statementWithin clock') (m + 1) := by
  induction clock with
  | nil =>
    intro clock' m hm _ us hus _
    obtain rfl : us = [] := List.length_eq_zero_iff.mp (by simp at hm; omega)
    simp only [move_nil, statementWithin_nil]
    exact ⟨rfl, .refl []⟩
  | cons c clock ih =>
    intro clock' m hm hm' us hus
    cases clock' with
    | nil =>
      obtain rfl : us = [] := List.length_eq_zero_iff.mp (by simp at hm'; omega)
      intro _
      simp only [move_nil, statementWithin_nil]
      exact ⟨rfl, .refl []⟩
    | cons c' clock' =>
      simp only [List.length_cons] at hm hm'
      have hin : StmtTracksBelow φ V (statementWithin clock) (statementWithin clock') m := by
        cases m with
        | zero => exact fun _ h => absurd h (Nat.not_lt_zero _)
        | succ k => exact ih clock' k (by omega) (by omega)
      exact Tracks.statementWith hin (Nat.le_of_lt_succ hus)

theorem Tracks.statement :
    Tracks φ V (fun s rest => rest.length < ts.length ∧ s.WellFormed V) statement statement ts :=
  stmtTracksBelow_statementWithin ts (move φ ts) ts.length (Nat.le_refl _) (by simp) ts
    (Nat.lt_succ_self _)

/-- What is nested in a statement are statements again. -/
theorem statement_eq : statement = statementWith statement := by
  funext ts
  cases ts with
  | nil => rfl
  | cons t ts =>
    have hin : StmtTracksBelow id .unrestricted statement (statementWithin ts)
        (ts.length + 1) := fun us hus =>
      stmtTracksBelow_statementWithin us ts us.length (Nat.le_refl _) (Nat.le_of_lt_succ hus) us
        (Nat.lt_succ_self _)
    show statementWith (statementWithin ts) (t :: ts) = statementWith statement (t :: ts)
    exact Tracks.eq (Tracks.statementWith hin (Nat.le_refl _))

/-! ## Programs -/

theorem Tracks.block :
    Tracks φ V (fun b _ => ∀ s ∈ b.2, s.WellFormed V) block block ts :=
  (Tracks.blockWith (fun _ _ => Tracks.statement) (Nat.le_refl _)).mono fun _ _ _ h => h.2

/-- Inside brackets one token is taken after the other. -/
theorem skipParameters_succ (depth : Nat) :
    skipParameters (depth + 1) = current >>= fun t =>
      if t.kind = .eof then refuse (.expected "')' after parameters")
      else advance >>= fun _ =>
        if Pattern.openParen.fits t then skipParameters (depth + 2)
        else if Pattern.closeParen.fits t then skipParameters depth
        else skipParameters (depth + 1) := by
  funext ts
  cases ts with
  | nil => rfl
  | cons t ts =>
    simp only [skipParameters, bind_apply, current]
    by_cases heof : t.kind = .eof
    · rw [if_pos heof, if_pos heof]
      rfl
    · rw [if_neg heof, if_neg heof]
      simp only [bind_apply, advance, heof, if_false]
      split
      · rfl
      · split <;> rfl

theorem Tracks.skipParameters (ts : List Token) (depth : Nat) :
    Tracks φ V (fun _ _ => True) (skipParameters depth) (skipParameters depth) ts := by
  induction ts generalizing depth with
  | nil =>
    cases depth with
    | zero => exact fun _ => ⟨rfl, .refl [], trivial⟩
    | succ depth => exact fun _ => ⟨rfl, .refl []⟩
  | cons t ts ih =>
    cases depth with
    | zero => exact fun _ => ⟨rfl, .refl (t :: ts), trivial⟩
    | succ depth =>
      rw [skipParameters_succ]
      refine Tracks.bind Tracks.current ?_
      intro u rest _ h
      obtain ⟨rfl, -, us, heq⟩ := h
      obtain ⟨rfl, rfl⟩ := List.cons.inj heq
      refine Tracks.ite Iff.rfl (fun _ => Tracks.refuse _) (fun heof => ?_)
      refine Tracks.bind (Tracks.take heof) ?_
      intro _ rest _ h
      obtain ⟨-, rfl⟩ := h
      exact Tracks.ite Iff.rfl (fun _ => ih _)
        fun _ => Tracks.ite Iff.rfl (fun _ => ih _) (fun _ => ih _)

theorem Tracks.method :
    Tracks φ V (fun ss _ => ∀ s ∈ ss, s.WellFormed V) method method ts := by
  refine Tracks.bind Tracks.advance ?_
  intro _ _ _ _
  refine Tracks.bind (Tracks.expect _ (by decide)) ?_
  intro _ _ _ _
  refine Tracks.bind (Tracks.expect _ (by decide)) ?_
  intro _ rest _ _
  refine Tracks.bind (Tracks.skipParameters rest 1) ?_
  intro _ _ _ _
  refine Tracks.bind Tracks.block ?_
  intro b _ _ h
  obtain ⟨p, body⟩ := b
  exact Tracks.pure rfl h

theorem Tracks.classBody :
    Tracks φ V (fun ss _ => ∀ s ∈ ss, s.WellFormed V) classBody classBody ts := by
  refine Tracks.bind (Tracks.expect _ (by simp [Pattern.keyword])) ?_
  intro _ _ _ _
  refine Tracks.bind (Tracks.expect _ (by decide)) ?_
  intro _ _ _ _
  refine Tracks.bind (Tracks.expect _ (by decide)) ?_
  intro _ rest _ _
  refine Tracks.bind Tracks.skipModifiers ?_
  intro _ _ _ _
  refine Tracks.bind Tracks.atMethod ?_
  intro b rest _ h
  have hclose : ∀ (body : List Stmt) (us : List Token), (∀ s ∈ body, s.WellFormed V) →
      Tracks φ V (fun ss _ => ∀ s ∈ ss, s.WellFormed V)
        (Reading.expect .closeBrace (.expected "'\x7d' to close class") >>= fun _ => Pure.pure body)
        (Reading.expect .closeBrace (.expected "'\x7d' to close class") >>= fun _ =>
          Pure.pure (move φ body)) us := by
    intro body us hbody
    refine Tracks.bind (Tracks.expect _ (by decide)) ?_
    intro _ _ _ _
    exact Tracks.pure rfl hbody
  refine Tracks.ite Iff.rfl (fun _ => ?_) (fun _ => ?_)
  · exact Tracks.bind Tracks.method (fun body us _ => hclose body us)
  · refine Tracks.bind (Tracks.statements (n := rest.length + 1) (fun _ _ => Tracks.statement)
      (Nat.lt_succ_self _) (fun _ => rfl)) (fun body us _ => hclose body us)

theorem Tracks.programBody :
    Tracks φ V (fun ss _ => ∀ s ∈ ss, s.WellFormed V) programBody programBody ts := by
  refine Tracks.bind (Tracks.isAt _) ?_
  intro b rest _ h
  refine Tracks.ite Iff.rfl (fun _ => Tracks.classBody) (fun _ => ?_)
  refine Tracks.bind Tracks.atMethod ?_
  intro b rest _ h
  refine Tracks.ite Iff.rfl (fun _ => Tracks.method) (fun _ => ?_)
  exact Tracks.statements (n := rest.length + 1) (fun _ _ => Tracks.statement)
    (Nat.lt_succ_self _) (fun _ => rfl)

theorem Tracks.program :
    Tracks φ V (fun program _ => program.WellFormed V) program program ts := by
  refine Tracks.hereThen fun p => ?_
  refine Tracks.bind Tracks.skipModifiers ?_
  intro _ _ _ _
  refine Tracks.bind Tracks.programBody ?_
  intro body _ _ hbody
  refine Tracks.bind (Tracks.isAt _) ?_
  intro b rest _ h
  refine Tracks.ite Iff.rfl (fun _ => ?_) (fun _ => Tracks.refuse _)
  exact Tracks.pure rfl hbody

end Reading

/-! ## Programs from tokens -/

namespace Program

/-- A program that is read from tokens of a vocabulary has no other words. -/
theorem wellFormed_of_admits {V : Vocabulary} {tokens : List Token} {program : Program}
    (hadmits : V.Admits tokens) (h : ofTokens tokens = .ok program) : program.WellFormed V := by
  have htracks : Reading.Tracks id V (fun program _ => program.WellFormed V)
      Reading.program Reading.program tokens := Reading.Tracks.program
  have hread := htracks hadmits
  unfold ofTokens at h
  cases hprogram : Reading.program tokens with
  | ok r =>
    rw [hprogram] at h hread
    obtain rfl := Except.ok.inj h
    exact hread.2.2
  | error stop =>
    rw [hprogram] at h
    cases h

/-- Every program that is read is well formed, and its words are those of the tokens. -/
theorem wellFormed_of_ofTokens {tokens : List Token} {program : Program}
    (h : ofTokens tokens = .ok program) : program.WellFormed (.of tokens) :=
  wellFormed_of_admits (Vocabulary.admits_of tokens) h

/-- The tokens of `for (int i = 0; i < n.size(); i++) a[i] += a.length * (b = -'c');`. -/
def foldingLoop : List Token :=
  [⟨.keyword, "for", ⟨1, 1⟩⟩, ⟨.paren, "(", ⟨1, 5⟩⟩, ⟨.keyword, "int", ⟨1, 6⟩⟩,
    ⟨.identifier, "i", ⟨1, 10⟩⟩, ⟨.operator, "=", ⟨1, 12⟩⟩, ⟨.number, "0", ⟨1, 14⟩⟩,
    ⟨.semicolon, ";", ⟨1, 15⟩⟩, ⟨.identifier, "i", ⟨1, 17⟩⟩, ⟨.operator, "<", ⟨1, 19⟩⟩,
    ⟨.identifier, "n", ⟨1, 21⟩⟩, ⟨.dot, ".", ⟨1, 22⟩⟩, ⟨.identifier, "size", ⟨1, 23⟩⟩,
    ⟨.paren, "(", ⟨1, 27⟩⟩, ⟨.paren, ")", ⟨1, 28⟩⟩, ⟨.semicolon, ";", ⟨1, 29⟩⟩,
    ⟨.identifier, "i", ⟨1, 31⟩⟩, ⟨.operator, "++", ⟨1, 32⟩⟩, ⟨.paren, ")", ⟨1, 34⟩⟩,
    ⟨.identifier, "a", ⟨1, 36⟩⟩, ⟨.bracket, "[", ⟨1, 37⟩⟩, ⟨.identifier, "i", ⟨1, 38⟩⟩,
    ⟨.bracket, "]", ⟨1, 39⟩⟩, ⟨.operator, "+=", ⟨1, 41⟩⟩, ⟨.identifier, "a", ⟨1, 44⟩⟩,
    ⟨.dot, ".", ⟨1, 45⟩⟩, ⟨.identifier, "length", ⟨1, 46⟩⟩, ⟨.operator, "*", ⟨1, 53⟩⟩,
    ⟨.paren, "(", ⟨1, 55⟩⟩, ⟨.identifier, "b", ⟨1, 56⟩⟩, ⟨.operator, "=", ⟨1, 58⟩⟩,
    ⟨.operator, "-", ⟨1, 60⟩⟩, ⟨.string, "'c'", ⟨1, 61⟩⟩, ⟨.paren, ")", ⟨1, 64⟩⟩,
    ⟨.semicolon, ";", ⟨1, 65⟩⟩, ⟨.eof, "", ⟨1, 66⟩⟩]

/-- The program that they spell. -/
def foldingProgram : Program :=
  ⟨⟨1, 1⟩,
    [.forLoop ⟨1, 1⟩
      (some (.declaration ⟨⟨1, 6⟩, "i", "int", 0, some (.literal ⟨1, 14⟩ "0")⟩))
      (some (.binary ⟨1, 17⟩ .lt (.name ⟨1, 17⟩ "i")
        (.methodCall ⟨1, 21⟩ (.name ⟨1, 21⟩ "n") "size" [])))
      (some (.update ⟨⟨1, 31⟩, .name ⟨1, 31⟩ "i", .increment⟩))
      (.assignment ⟨⟨1, 36⟩, .index ⟨1, 36⟩ (.name ⟨1, 36⟩ "a") [.name ⟨1, 38⟩ "i"], .add,
        .binary ⟨1, 44⟩ .mul (.length ⟨1, 44⟩ (.name ⟨1, 44⟩ "a"))
          (.assign ⟨1, 56⟩ (.name ⟨1, 56⟩ "b") .set
            (.unary ⟨1, 60⟩ .neg (.literal ⟨1, 61⟩ "'c'")))⟩)]⟩

theorem wellFormed_of_ofTokens_foldingLoop :
    ofTokens foldingLoop = .ok foldingProgram ∧ foldingProgram.WellFormed (.of foldingLoop) :=
  ⟨rfl, wellFormed_of_ofTokens rfl⟩

end Program

end Pseudocode
