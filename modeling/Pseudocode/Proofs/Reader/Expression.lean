import Pseudocode.Proofs.Reader.Tracks
import Pseudocode.Reader.Expression
set_option autoImplicit false

/-!
# Readings of expressions meet their specification

One lemma a reading, in the order of the readings.  What is nested in an expression
is read by a reading handed in from outside, of which the lemmas assume the
specification on shorter lists only.
-/

namespace Pseudocode.Reading

open Token (Closed Remains)

variable {φ : Pos → Pos} {V : Vocabulary} {ts : List Token} {inner inner' : Nested} {n : Nat}

/-- On lists of fewer than `n` tokens the nested readings meet their specification:
each takes at least one token and yields a well-formed expression. -/
structure Nested.TracksBelow (φ : Pos → Pos) (V : Vocabulary) (inner inner' : Nested)
    (n : Nat) : Prop where
  expression : ∀ us : List Token, us.length < n →
    Tracks φ V (fun e rest => rest.length < us.length ∧ e.WellFormed V)
      inner.expression inner'.expression us
  initializer : ∀ us : List Token, us.length < n →
    Tracks φ V (fun e rest => rest.length < us.length ∧ e.WellFormed V)
      inner.initializer inner'.initializer us

/-! ## Calls, subscripts and fields -/

/-- An item behind a sign takes that sign at least. -/
theorem Tracks.behind {p : Pattern} (hp : p.kind ≠ .eof) {item item' : Reading Expr} {t : Token}
    {us : List Token} (ht : p.fits t = true)
    (hitem : Tracks φ V (fun e rest => rest.length < us.length ∧ e.WellFormed V) item item' us) :
    Tracks φ V (fun e rest => rest.length ≤ us.length ∧ e.WellFormed V)
      (Reading.advance >>= fun _ => item) (Reading.advance >>= fun _ => item') (t :: us) := by
  refine Tracks.bind (Tracks.take (ne_eof_of_fits ht hp)) ?_
  intro _ rest _ h
  obtain ⟨-, rfl⟩ := h
  refine hitem.mono ?_
  intro e rest' _ h
  exact ⟨Nat.le_of_lt h.1, h.2⟩

theorem Tracks.argumentsWith (hin : Nested.TracksBelow φ V inner inner' n) (hts : ts.length < n) :
    Tracks φ V (fun es rest => rest.length < ts.length ∧ ∀ e ∈ es, e.WellFormed V)
      (argumentsWith inner) (argumentsWith inner') ts := by
  refine Tracks.acceptThen (by decide) ?_ ?_
  · rintro t us rfl -
    exact Tracks.pure rfl ⟨by simp, by simp⟩
  · rintro t us rfl -
    refine Tracks.bind (hin.expression _ hts) ?_
    intro first rest₁ hrest₁ h
    obtain ⟨hlen, hfirst⟩ := h
    refine Tracks.bind (Tracks.many (P := fun e => e.WellFormed V) (fun _ => rfl) ?_) ?_
    · intro t us hus hcomma
      have hle := hus.length_le
      simp only [List.length_cons] at hle hts hlen
      exact Tracks.behind (by decide) hcomma (hin.expression _ (by omega))
    · intro others rest₂ hrest₂ h
      obtain ⟨hothers, -⟩ := h
      refine Tracks.bind (Tracks.expect _ (by decide)) ?_
      rintro t rest₃ hrest₃ -
      have hle := (hrest₂.trans hrest₃).length_le
      exact Tracks.pure rfl ⟨by omega, by simpa using ⟨hfirst, hothers⟩⟩

/-- An expression in square brackets. -/
theorem Tracks.subscriptWith (hin : Nested.TracksBelow φ V inner inner' n) {t : Token}
    {us : List Token} (hus : us.length < n) (ht : Pattern.openBracket.fits t = true)
    (reason : Refusal) :
    Tracks φ V (fun e rest => rest.length ≤ us.length ∧ e.WellFormed V)
      (Reading.advance >>= fun _ => inner.expression >>= fun index =>
        Reading.expect .closeBracket reason >>= fun _ => Pure.pure index)
      (Reading.advance >>= fun _ => inner'.expression >>= fun index =>
        Reading.expect .closeBracket reason >>= fun _ => Pure.pure index) (t :: us) := by
  refine Tracks.behind (by decide) ht ?_
  refine Tracks.bind (hin.expression us hus) ?_
  intro e rest₁ hrest₁ h
  obtain ⟨hlen, he⟩ := h
  refine Tracks.bind (Tracks.expect _ (by decide)) ?_
  intro v rest₂ hrest₂ _
  have hle₂ := hrest₂.length_le
  exact Tracks.pure rfl ⟨by omega, he⟩

theorem Tracks.subscriptsWith (hin : Nested.TracksBelow φ V inner inner' n)
    (hts : ts.length ≤ n) :
    Tracks φ V (fun es rest => (∀ e ∈ es, e.WellFormed V) ∧
        ∀ t us, ts = t :: us → Pattern.openBracket.fits t = true →
          es ≠ [] ∧ rest.length ≤ us.length)
      (subscriptsWith inner) (subscriptsWith inner') ts := by
  refine Tracks.many (fun _ => rfl) ?_
  intro t us hus hbracket
  have hle := hus.length_le
  simp only [List.length_cons] at hle
  exact Tracks.subscriptWith hin (by omega) hbracket _

/-- One more call, field or chain of subscripts. -/
theorem Tracks.extendWith (hin : Nested.TracksBelow φ V inner inner' n) (hts : ts.length ≤ n)
    (node : Expr) :
    Tracks φ V (fun r rest => ∀ e, r = some e →
        rest.length < ts.length ∧ (node.WellFormed V → e.WellFormed V))
      (extendWith inner node) (extendWith inner' (move φ node)) ts := by
  refine Tracks.currentThen ?_
  rintro t us rfl ht
  simp only [List.length_cons] at hts ⊢
  refine Tracks.ite Iff.rfl (fun hparen => ?_) fun _ => Tracks.ite Iff.rfl (fun hdot => ?_)
    fun _ => Tracks.ite Iff.rfl (fun hbracket => ?_) fun _ => ?_
  · -- only a name can be called; everything else is refused
    cases node with
    | name p name =>
      refine Tracks.takeThen (ne_eof_of_fits hparen (by decide)) ?_
      refine Tracks.bind (Tracks.argumentsWith hin (by omega)) ?_
      intro args rest₁ hrest₁ h
      obtain ⟨hlen, hargs⟩ := h
      refine Tracks.pure (by simp) ?_
      rintro e ⟨⟩
      simp only [Expr.WellFormed, Expr.allWellFormed_iff]
      exact ⟨by omega, fun hnode => ⟨hnode, hargs⟩⟩
    | _ => exact Tracks.refuse _
  · refine Tracks.takeThen (ne_eof_of_fits hdot (by decide)) ?_
    refine Tracks.bind (Tracks.expect _ (by decide)) ?_
    intro name rest₁ hrest₁ h
    obtain ⟨rfl, -, hname⟩ := h
    simp only [List.length_cons] at hts ⊢
    refine Tracks.acceptThen (by decide) ?_ ?_
    · rintro u us rfl -
      simp only [List.length_cons] at hts ⊢
      refine Tracks.bind (Tracks.argumentsWith hin (by omega)) ?_
      intro args rest₃ hrest₃ h
      obtain ⟨hlen, hargs⟩ := h
      refine Tracks.pure (by simp) ?_
      rintro e ⟨⟩
      simp only [Expr.WellFormed, Expr.allWellFormed_iff]
      exact ⟨by omega, fun hnode => ⟨hnode, hname, hargs⟩⟩
    · rintro u us rfl -
      refine Tracks.ite Iff.rfl (fun _ => ?_) (fun hlength => ?_)
      · refine Tracks.pure (by simp) ?_
        rintro e ⟨⟩
        exact ⟨by omega, fun hnode => hnode⟩
      · refine Tracks.pure (by simp) ?_
        rintro e ⟨⟩
        exact ⟨by omega, fun hnode => ⟨hnode, hname, hlength⟩⟩
  · refine Tracks.bind (Tracks.subscriptsWith hin hts) ?_
    intro indices rest hrest h
    obtain ⟨hindices, hfirst⟩ := h
    obtain ⟨hne, hlen⟩ := hfirst t us rfl hbracket
    refine Tracks.pure (by simp) ?_
    rintro e ⟨⟩
    simp only [Expr.WellFormed, Expr.allWellFormed_iff]
    exact ⟨by omega, fun hnode => ⟨hnode, hne, hindices⟩⟩
  · exact Tracks.pure rfl (by simp)

/-- All that stands behind an operand. -/
theorem Tracks.suffixesWith (hin : Nested.TracksBelow φ V inner inner' n) (hts : ts.length ≤ n)
    (base : Expr) :
    Tracks φ V (fun e _ => base.WellFormed V → e.WellFormed V) (suffixesWith inner base)
      (suffixesWith inner' (move φ base)) ts := by
  refine Tracks.bind (Tracks.iterate (I := fun e => base.WellFormed V → e.WellFormed V)
    (fun _ => rfl) (fun _ => rfl) id ?_) ?_
  · intro us node hus hnode
    refine (Tracks.extendWith hin (Nat.le_trans hus.length_le hts) node).mono ?_
    intro r rest _ h e he
    exact ⟨(h e he).1, fun hbase => (h e he).2 (hnode hbase)⟩
  · intro node rest _ hnode
    refine Tracks.currentThen ?_
    rintro t us rfl -
    have hmoved : (move φ t).updateOp? = t.updateOp? := rfl
    rw [hmoved]
    cases hop : t.updateOp? with
    | none => exact Tracks.pure rfl hnode
    | some op =>
      obtain ⟨hkind, hop⟩ := Token.updateOp?_eq_some hop
      refine Tracks.bind (Tracks.take (by simp [hkind])) ?_
      intro _ _ _ _
      exact Tracks.pure (by simp) fun hbase => ⟨hop, hnode hbase⟩

/-! ## Operands -/

/-- A pair of brackets behind a type; it takes at least one token. -/
theorem Tracks.dimensionWith (hin : Nested.TracksBelow φ V inner inner' n) {t : Token}
    {us : List Token} (hts : us.length < n) (ht : Pattern.openBracket.fits t = true) :
    Tracks φ V (fun r rest => rest.length ≤ us.length ∧ ∀ e ∈ r, e.WellFormed V)
      (dimensionWith inner) (dimensionWith inner') (t :: us) := by
  refine Tracks.takeThen (ne_eof_of_fits ht (by decide)) ?_
  refine Tracks.acceptThen (by decide) ?_ ?_
  · intro u vs heq _
    subst heq
    exact Tracks.pure rfl ⟨by simp, by simp⟩
  · intro u vs heq _
    refine Tracks.bind (hin.expression us hts) ?_
    intro size rest₁ _ h
    obtain ⟨hlen, hsize⟩ := h
    refine Tracks.bind (Tracks.expect _ (by decide)) ?_
    intro v rest₂ hrest₂ _
    have hle := hrest₂.length_le
    exact Tracks.pure rfl ⟨by omega, by simpa using hsize⟩

/-- Sizes are all there just when none is missing. -/
theorem mapM_id_eq_some {dims : List (Option Expr)} {sizes : List Expr} :
    dims.mapM id = some sizes ↔ dims = sizes.map some := by
  induction dims generalizing sizes with
  | nil => cases sizes <;> simp
  | cons d dims ih =>
    cases d with
    | none => cases sizes <;> simp
    | some e =>
      cases sizes with
      | nil => simp [Option.bind_eq_some_iff]
      | cons size sizes =>
        simp only [List.mapM_cons, id, Option.bind_eq_bind, Option.bind_some, ← ih,
          Option.bind_eq_some_iff, Option.pure_def, Option.some.injEq, List.cons.injEq,
          List.map_cons]
        constructor
        · intro h
          obtain ⟨as, has, rfl, rfl⟩ := h
          exact ⟨rfl, has⟩
        · intro h
          exact ⟨sizes, h.2, h.1, rfl⟩

theorem mapM_id_move (dims : List (Option Expr)) :
    (move φ dims).mapM id = move φ (dims.mapM id) := by
  induction dims with
  | nil => rfl
  | cons d dims ih =>
    cases d with
    | none => simp
    | some e => cases h : dims.mapM id <;> simp [ih, h]

/-- A fresh object or array, behind the word `new`. -/
theorem Tracks.freshWith (hin : Nested.TracksBelow φ V inner inner' n) (hts : ts.length < n)
    (p : Pos) :
    Tracks φ V (fun e _ => e.WellFormed V) (freshWith inner p) (freshWith inner' (φ p)) ts := by
  refine Tracks.currentThen ?_
  rintro t us rfl ht
  simp only [List.length_cons] at hts
  refine Tracks.bind (Tracks.peek 1) ?_
  intro u rest _ h
  obtain ⟨rfl, hu⟩ := h
  refine Tracks.ite Iff.rfl (fun hobject => ?_) fun _ => Tracks.ite Iff.rfl (fun hword => ?_) ?_
  · obtain ⟨hident, -⟩ := hobject
    refine Tracks.takeThen (by simp [hident]) ?_
    refine Tracks.bind Tracks.advance ?_
    intro _ rest hrest _
    have hle := hrest.length_le
    refine Tracks.bind (Tracks.argumentsWith hin (by omega)) ?_
    intro args _ _ h
    refine Tracks.pure (by simp) ?_
    simp only [Expr.WellFormed, Expr.allWellFormed_iff]
    exact ⟨hident ▸ ht, h.2⟩
  · have hkind : t.kind ≠ .eof := by
      rcases hword with h | h <;> simp [h]
    refine Tracks.takeThen hkind ?_
    refine Tracks.bind (Tracks.many (P := fun d => ∀ e ∈ d, e.WellFormed V) (fun _ => rfl) ?_) ?_
    · intro b vs hvs hb
      have hle := hvs.length_le
      simp only [List.length_cons] at hle
      exact Tracks.dimensionWith hin (by omega) hb
    · intro dims rest hrest h
      obtain ⟨hdims, -⟩ := h
      have hle := hrest.length_le
      rw [getLast?_move]
      cases hlast : dims.getLast? with
      | none => exact Tracks.refuse _
      | some last =>
        refine Tracks.bind (Tracks.isAt _) ?_
        intro b rest₁ _ h
        obtain ⟨rfl, -⟩ := h
        refine Tracks.ite (by simp) (fun _ => ?_) (fun _ => ?_)
        · refine (hin.initializer _ (by omega)).mono ?_
          intro e _ _ h
          exact h.2
        · rw [mapM_id_move]
          cases hsizes : dims.mapM id with
          | none => exact Tracks.refuse _
          | some sizes =>
            obtain rfl := mapM_id_eq_some.mp hsizes
            refine Tracks.pure (by simp) ?_
            simp only [Expr.WellFormed, Expr.allWellFormed_iff]
            refine ⟨?_, ?_, ?_⟩
            · rcases hword with h | h
              · exact .inl (h ▸ ht)
              · exact .inr (h ▸ ht)
            · intro hnil
              simp [hnil] at hlast
            · intro e he
              exact hdims (some e) (List.mem_map_of_mem he) e rfl
  · exact fun _ => Tracks.refuse _

/-- An operand takes at least one token. -/
theorem Tracks.primaryWith (hin : Nested.TracksBelow φ V inner inner' n) (hts : ts.length ≤ n) :
    Tracks φ V (fun e rest => rest.length < ts.length ∧ e.WellFormed V) (primaryWith inner)
      (primaryWith inner') ts := by
  refine Tracks.currentThen ?_
  rintro t us rfl ht
  simp only [List.length_cons] at hts ⊢
  refine Tracks.ite Iff.rfl (fun hnew => ?_) fun _ => Tracks.ite Iff.rfl (fun hliteral => ?_)
    fun _ => Tracks.ite Iff.rfl (fun hident => ?_) fun _ => Tracks.ite Iff.rfl (fun hparen => ?_)
    fun _ => Tracks.refuse _
  · refine Tracks.takeThen (ne_eof_of_fits hnew (by simp [Pattern.keyword])) ?_
    refine (Tracks.freshWith hin (by omega) _).mono ?_
    intro e rest hrest he
    have hle := hrest.length_le
    exact ⟨by omega, he⟩
  · have hkind : t.kind ≠ .eof ∧ V.IsLiteral t.text := by
      rcases hliteral with h | h | h | h
      · exact ⟨by simp [h], .inl (h ▸ ht)⟩
      · exact ⟨by simp [h], .inr (.inl (h ▸ ht))⟩
      · exact ⟨ne_eof_of_fits h (by simp [Pattern.keyword]),
          .inr (.inr (.inl (text_of_fits h rfl)))⟩
      · exact ⟨ne_eof_of_fits h (by simp [Pattern.keyword]),
          .inr (.inr (.inr (text_of_fits h rfl)))⟩
    refine Tracks.takeThen hkind.1 ?_
    exact Tracks.pure rfl ⟨by omega, hkind.2⟩
  · have hname : (Expr.name t.pos t.text).WellFormed V := by
      rw [hident] at ht
      exact ht
    refine Tracks.takeThen (by simp [hident]) ?_
    refine (Tracks.suffixesWith hin (by omega) _).mono ?_
    intro e rest hrest he
    have hle := hrest.length_le
    exact ⟨by omega, he hname⟩
  · refine Tracks.takeThen (ne_eof_of_fits hparen (by decide)) ?_
    refine Tracks.bind (hin.expression _ (by omega)) ?_
    intro e rest hrest h
    refine Tracks.bind (Tracks.expect _ (by decide)) ?_
    intro v rest₁ hrest₁ _
    have hle₁ := hrest₁.length_le
    refine (Tracks.suffixesWith hin (by omega) e).mono ?_
    intro e' rest₂ hrest₂ he'
    have hle₂ := hrest₂.length_le
    exact ⟨by omega, he' h.2⟩

/-- Operators before an operand, applied from the inside out. -/
theorem wellFormed_foldr_unary {signs : List (Pos × UnaryOp)} {operand : Expr}
    (hsigns : ∀ sign ∈ signs, sign.2 = .not ∨ sign.2 = .neg) (hoperand : operand.WellFormed V) :
    (signs.foldr (fun sign e => Expr.unary sign.1 sign.2 e) operand).WellFormed V := by
  induction signs with
  | nil => exact hoperand
  | cons sign signs ih =>
    exact ⟨hsigns sign List.mem_cons_self, ih fun s hs => hsigns s (List.mem_cons_of_mem _ hs)⟩

theorem move_foldr_unary (signs : List (Pos × UnaryOp)) (operand : Expr) :
    move φ (signs.foldr (fun sign e => Expr.unary sign.1 sign.2 e) operand) =
      (move φ signs).foldr (fun sign e => Expr.unary sign.1 sign.2 e) (move φ operand) := by
  induction signs with
  | nil => rfl
  | cons sign signs ih =>
    simp only [List.foldr_cons, Expr.move_unary, ih, move_cons]
    rfl

theorem Tracks.unaryWith (hin : Nested.TracksBelow φ V inner inner' n) (hts : ts.length ≤ n) :
    Tracks φ V (fun e rest => rest.length < ts.length ∧ e.WellFormed V) (unaryWith inner)
      (unaryWith inner') ts := by
  refine Tracks.bind (Tracks.collect (P := fun sign => sign.2 = .not ∨ sign.2 = .neg) ?_ ?_ ?_) ?_
  · intro t
    have hmoved : (move φ t).unaryOp? = t.unaryOp? := rfl
    rw [hmoved]
    cases t.unaryOp? <;> rfl
  · intro t heof
    cases hop : t.unaryOp? with
    | none => rfl
    | some op => exact absurd ((Token.unaryOp?_eq_some hop).1.symm.trans heof) (by simp)
  · intro t sign hsign
    obtain ⟨op, hop, rfl⟩ := Option.map_eq_some_iff.mp hsign
    exact (Token.unaryOp?_eq_some hop).2
  · intro signs rest hrest hsigns
    have hle := hrest.length_le
    refine Tracks.bind (Tracks.primaryWith hin (by omega)) ?_
    intro operand rest₁ _ h
    exact Tracks.pure (move_foldr_unary signs operand).symm
      ⟨by omega, wellFormed_foldr_unary hsigns h.2⟩

/-! ## Operators between operands -/

/-- One more operator of a level with its right operand, if there is one. -/
def joinWith (operator? : Token → Option BinaryOp) (operand : Reading Expr) (left : Expr) :
    Reading (Option Expr) := do
  match operator? (← current) with
  | none => return none
  | some op =>
    let _ ← advance
    let right ← operand
    return some (.binary left.pos op left right)

theorem leftAssoc_eq (operator? : Token → Option BinaryOp) (operand : Reading Expr) :
    leftAssoc operator? operand = operand >>= iterate (joinWith operator? operand) := rfl

variable {operator? : Token → Option BinaryOp} {operand operand' : Reading Expr}

theorem Tracks.joinWith (hmoved : ∀ t, operator? (move φ t) = operator? t)
    (hop : ∀ t op, operator? t = some op → t.kind = .operator ∧ op ∈ BinaryOp.all)
    (hoperand : ∀ us : List Token, us.length ≤ n →
      Tracks φ V (fun e rest => rest.length < us.length ∧ e.WellFormed V) operand operand' us)
    (hts : ts.length ≤ n) (left : Expr) :
    Tracks φ V (fun r rest => ∀ e, r = some e →
        rest.length < ts.length ∧ (left.WellFormed V → e.WellFormed V))
      (joinWith operator? operand left) (joinWith operator? operand' (move φ left)) ts := by
  refine Tracks.currentThen ?_
  rintro t us rfl -
  simp only [List.length_cons] at hts
  rw [hmoved]
  cases hread : operator? t with
  | none => exact Tracks.pure rfl (by simp)
  | some op =>
    obtain ⟨hkind, hmem⟩ := hop t op hread
    refine Tracks.takeThen (by simp [hkind]) ?_
    refine Tracks.bind (hoperand _ (by omega)) ?_
    intro right rest₁ _ h
    refine Tracks.pure (by simp) ?_
    intro e he
    obtain rfl := Option.some.inj he
    simp only [List.length_cons]
    exact ⟨by omega, fun hleft => ⟨hmem, hleft, h.2⟩⟩

/-- Operands joined by operators of one level. -/
theorem Tracks.leftAssoc (hmoved : ∀ t, operator? (move φ t) = operator? t)
    (hop : ∀ t op, operator? t = some op → t.kind = .operator ∧ op ∈ BinaryOp.all)
    (hoperand : ∀ us : List Token, us.length ≤ n →
      Tracks φ V (fun e rest => rest.length < us.length ∧ e.WellFormed V) operand operand' us)
    (hts : ts.length ≤ n) :
    Tracks φ V (fun e rest => rest.length < ts.length ∧ e.WellFormed V)
      (leftAssoc operator? operand) (leftAssoc operator? operand') ts := by
  rw [leftAssoc_eq, leftAssoc_eq]
  refine Tracks.bind (hoperand ts hts) ?_
  intro first rest hrest h
  obtain ⟨hlen, hfirst⟩ := h
  refine (Tracks.iterate (fun _ => rfl) (fun _ => rfl) hfirst ?_).mono ?_
  · intro us left hus hleft
    have hle := hus.length_le
    refine (Tracks.joinWith hmoved hop hoperand (by omega) left).mono ?_
    intro r rest₁ _ h e he
    exact ⟨(h e he).1, (h e he).2 hleft⟩
  · intro e rest₁ hrest₁ he
    have hle := hrest₁.length_le
    exact ⟨by omega, he⟩

/-- The operator of level `k + 1` that a token is. -/
def levelOp? (k : Nat) (t : Token) : Option BinaryOp :=
  t.binaryOp?.filter (·.precedence == loosest - k)

theorem levelWith_succ (inner : Nested) (k : Nat) :
    levelWith inner (k + 1) = leftAssoc (levelOp? k) (levelWith inner k) := rfl

theorem levelOp?_eq_some {k : Nat} {t : Token} {op : BinaryOp} (h : levelOp? k t = some op) :
    t.kind = .operator ∧ op ∈ BinaryOp.all :=
  Token.binaryOp?_eq_some (Option.mem_filter_iff.mp h).1

/-- Every level of operators takes at least one token. -/
theorem Tracks.levelWith (hin : Nested.TracksBelow φ V inner inner' n) (k : Nat)
    (hts : ts.length ≤ n) :
    Tracks φ V (fun e rest => rest.length < ts.length ∧ e.WellFormed V) (levelWith inner k)
      (levelWith inner' k) ts := by
  induction k generalizing ts with
  | zero => exact Tracks.unaryWith hin hts
  | succ k ih =>
    rw [levelWith_succ, levelWith_succ]
    exact Tracks.leftAssoc (fun _ => rfl) (fun _ _ => levelOp?_eq_some) (fun us hus => ih hus) hts

theorem Tracks.assigningWith (hin : Nested.TracksBelow φ V inner inner' n) (hts : ts.length ≤ n) :
    Tracks φ V (fun e rest => rest.length < ts.length ∧ e.WellFormed V) (assigningWith inner)
      (assigningWith inner') ts := by
  refine Tracks.bind (Tracks.levelWith hin loosest hts) ?_
  intro left rest _ h
  obtain ⟨hlen, hleft⟩ := h
  refine Tracks.currentThen ?_
  rintro t us rfl -
  simp only [List.length_cons] at hlen
  have hmoved : (move φ t).assignOp? = t.assignOp? := rfl
  rw [hmoved]
  cases hop : t.assignOp? with
  | none => exact Tracks.pure rfl ⟨by simpa using hlen, hleft⟩
  | some op =>
    obtain ⟨hkind, hmem⟩ := Token.assignOp?_eq_some hop
    refine Tracks.ite (by simp) (fun htarget => ?_) (fun _ => Tracks.refuse _)
    refine Tracks.takeThen (by simp [hkind]) ?_
    refine Tracks.bind (hin.expression _ (by omega)) ?_
    intro value rest₂ _ h
    exact Tracks.pure (by simp) ⟨by omega, htarget, hleft, hmem, h.2⟩

/-! ## Elements between braces -/

theorem Tracks.elementWith (hin : Nested.TracksBelow φ V inner inner' n) (hts : ts.length < n) :
    Tracks φ V (fun e rest => rest.length < ts.length ∧ e.WellFormed V) (elementWith inner)
      (elementWith inner') ts := by
  refine Tracks.bind (Tracks.isAt _) ?_
  intro b rest _ h
  obtain ⟨rfl, -⟩ := h
  exact Tracks.ite Iff.rfl (fun _ => hin.initializer _ hts) fun _ => hin.expression _ hts

theorem Tracks.elementsWith (hin : Nested.TracksBelow φ V inner inner' n) (hts : ts.length ≤ n) :
    Tracks φ V (fun e rest => rest.length < ts.length ∧ e.WellFormed V) (elementsWith inner)
      (elementsWith inner') ts := by
  refine Tracks.hereThen fun p => ?_
  refine Tracks.expectThen (by decide) ?_
  rintro t us rfl - -
  simp only [List.length_cons] at hts ⊢
  refine Tracks.acceptThen (by decide) ?_ ?_
  · intro u vs heq _
    subst heq
    refine Tracks.pure rfl ⟨by simp only [List.length_cons]; omega, ?_⟩
    simp [Expr.WellFormed]
  · intro u vs heq _
    refine Tracks.bind (Tracks.elementWith hin (by omega)) ?_
    intro first rest₁ hrest₁ h
    obtain ⟨hlen, hfirst⟩ := h
    refine Tracks.bind (Tracks.many (P := fun e => e.WellFormed V) (fun _ => rfl) ?_) ?_
    · intro v ws hws hcomma
      have hle := hws.length_le
      simp only [List.length_cons] at hle
      exact Tracks.behind (by decide) hcomma (Tracks.elementWith hin (by omega))
    · intro others rest₂ hrest₂ h
      refine Tracks.bind (Tracks.expect _ (by decide)) ?_
      intro v rest₃ hrest₃ _
      have hle := (hrest₂.trans hrest₃).length_le
      refine Tracks.pure (by simp) ⟨by omega, ?_⟩
      simp only [Expr.WellFormed, Expr.allWellFormed_iff, List.mem_cons, forall_eq_or_imp]
      exact ⟨hfirst, h.1⟩

/-! ## Nesting -/

theorem levelWith_nil (inner : Nested) (k : Nat) : levelWith inner k [] = .error .exhausted := by
  induction k with
  | zero => rfl
  | succ k ih =>
    rw [levelWith, leftAssoc, bind_apply, ih]

theorem assigningWith_nil (inner : Nested) : assigningWith inner [] = .error .exhausted := by
  rw [assigningWith, bind_apply, levelWith_nil]

theorem expressionWithin_nil (clock : List Token) :
    expressionWithin clock [] = .error .exhausted := by
  cases clock with
  | nil => rw [expressionWithin]; rfl
  | cons c clock => rw [expressionWithin, assigningWith_nil]

theorem initializerWithin_nil (clock : List Token) :
    initializerWithin clock [] = .error .exhausted := by
  cases clock with
  | nil => rw [initializerWithin]; rfl
  | cons c clock => rw [initializerWithin]; rfl

/-- Clocks that are at least as long as the list all lead to the same end. -/
theorem Nested.tracksBelow_nestedWithin (clock : List Token) :
    ∀ (clock' : List Token) (m : Nat), m ≤ clock.length → m ≤ clock'.length →
      Nested.TracksBelow φ V (nestedWithin clock) (nestedWithin clock') (m + 1) := by
  induction clock with
  | nil =>
    intro clock' m hm _
    constructor <;> intro us hus _
    all_goals
      obtain rfl : us = [] := List.length_eq_zero_iff.mp (by simp at hm; omega)
      simp only [nestedWithin, move_nil, expressionWithin_nil, initializerWithin_nil]
      exact ⟨rfl, .refl []⟩
  | cons c clock ih =>
    intro clock' m hm hm'
    cases clock' with
    | nil =>
      constructor <;> intro us hus _
      all_goals
        obtain rfl : us = [] := List.length_eq_zero_iff.mp (by simp at hm'; omega)
        simp only [nestedWithin, move_nil, expressionWithin_nil, initializerWithin_nil]
        exact ⟨rfl, .refl []⟩
    | cons c' clock' =>
      simp only [List.length_cons] at hm hm'
      have hin : Nested.TracksBelow φ V (nestedWithin clock) (nestedWithin clock') m := by
        cases m with
        | zero =>
          exact ⟨fun _ h => absurd h (Nat.not_lt_zero _), fun _ h => absurd h (Nat.not_lt_zero _)⟩
        | succ k => exact ih clock' k (by omega) (by omega)
      constructor <;> intro us hus
      · simp only [nestedWithin, Reading.expressionWithin]
        exact Tracks.assigningWith hin (Nat.le_of_lt_succ hus)
      · simp only [nestedWithin, Reading.initializerWithin]
        exact Tracks.elementsWith hin (Nat.le_of_lt_succ hus)

/-- The readings for what is nested, without a clock. -/
def nested : Nested := ⟨expression, initializer⟩

/-- A clock that is long enough can be left out. -/
theorem expressionWithin_eq {clock : List Token} (h : ts.length ≤ clock.length) :
    expressionWithin clock ts = expression ts :=
  Tracks.eq ((Nested.tracksBelow_nestedWithin ts clock ts.length (Nat.le_refl _) h).expression ts
    (Nat.lt_succ_self _))

theorem initializerWithin_eq {clock : List Token} (h : ts.length ≤ clock.length) :
    initializerWithin clock ts = initializer ts :=
  Tracks.eq ((Nested.tracksBelow_nestedWithin ts clock ts.length (Nat.le_refl _) h).initializer ts
    (Nat.lt_succ_self _))

theorem Tracks.expression :
    Tracks φ V (fun e rest => rest.length < ts.length ∧ e.WellFormed V) expression expression ts :=
  (Nested.tracksBelow_nestedWithin ts (move φ ts) ts.length (Nat.le_refl _) (by simp)).expression
    ts (Nat.lt_succ_self _)

theorem Tracks.initializer :
    Tracks φ V (fun e rest => rest.length < ts.length ∧ e.WellFormed V) initializer initializer
      ts :=
  (Nested.tracksBelow_nestedWithin ts (move φ ts) ts.length (Nat.le_refl _) (by simp)).initializer
    ts (Nat.lt_succ_self _)

/-- The nested readings meet their specification on every list. -/
theorem Nested.tracksBelow_nested (n : Nat) : Nested.TracksBelow φ V nested nested n :=
  ⟨fun _ _ => Tracks.expression, fun _ _ => Tracks.initializer⟩

/-- Up to a length that the clock covers, the nested readings need no clock. -/
theorem Nested.tracksBelow_nested_nestedWithin (clock : List Token) :
    Nested.TracksBelow id .unrestricted nested (nestedWithin clock) (clock.length + 1) := by
  constructor
  · intro us hus
    exact (Nested.tracksBelow_nestedWithin us clock us.length (Nat.le_refl _)
      (Nat.le_of_lt_succ hus)).expression us (Nat.lt_succ_self _)
  · intro us hus
    exact (Nested.tracksBelow_nestedWithin us clock us.length (Nat.le_refl _)
      (Nat.le_of_lt_succ hus)).initializer us (Nat.lt_succ_self _)

/-! ## Equations without clocks -/

/-- An expression may assign, and what is nested in it are expressions again. -/
theorem expression_eq : expression = assigningWith nested := by
  funext ts
  cases ts with
  | nil => rw [assigningWith_nil]; exact expressionWithin_nil []
  | cons t ts =>
    rw [expression, expressionWithin]
    exact Tracks.eq (Tracks.assigningWith (Nested.tracksBelow_nested_nestedWithin ts)
      (Nat.le_refl _))

theorem initializer_eq : initializer = elementsWith nested := by
  funext ts
  cases ts with
  | nil => exact initializerWithin_nil []
  | cons t ts =>
    rw [initializer, initializerWithin]
    exact Tracks.eq (Tracks.elementsWith (Nested.tracksBelow_nested_nestedWithin ts)
      (Nat.le_refl _))

theorem subscripts_eq : subscripts = subscriptsWith nested := by
  funext ts
  unfold subscripts
  exact Tracks.eq (Tracks.subscriptsWith (Nested.tracksBelow_nested_nestedWithin ts)
    (Nat.le_succ _))

theorem suffixes_eq (base : Expr) : suffixes base = suffixesWith nested base := by
  funext ts
  unfold suffixes
  have h := Tracks.suffixesWith (Nested.tracksBelow_nested_nestedWithin ts) (Nat.le_succ _) base
  rw [Placed.move_id] at h
  exact Tracks.eq h

end Pseudocode.Reading
