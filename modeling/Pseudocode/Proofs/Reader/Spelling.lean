import Pseudocode.Proofs.Reader.Expression
import Pseudocode.Proofs.Token.Scanning
set_option autoImplicit false

/-!
# What tokens spell

`Spells n ts e` says that the tokens `ts`, in front of anything that does not go on
with them, are read as `e` by the reading of level `n`.  The lemmas of this module are
the rules of a grammar: each of them puts the spelling of an expression together from
the spellings of its parts, whatever decides which brackets are written.

The tokens stand at no place in particular.  As positions decide nothing, what they
spell holds of tokens at any place, with the positions of the tree adapted.
-/

namespace Pseudocode

/-- The token that a pattern asks for. -/
def Pattern.token (p : Pattern) : Token :=
  .bare p.kind (p.text.getD "")

/-- The token of an operator. -/
def Token.symbol (text : String) : Token :=
  .bare .operator text

/-- The token of a name. -/
def Token.word (name : String) : Token :=
  .bare .identifier name

/-- The token of a literal. -/
def Token.literal (raw : String) : Token :=
  if raw = "true" ∨ raw = "false" then .bare .keyword raw
  else if raw.toList.head?.any Source.isQuote then .bare .string raw
  else .bare .number raw

/-- The token of a literal is of its kind. -/
theorem Token.literal_eq {raw : String} (h : Vocabulary.lexical.IsLiteral raw) :
    ∃ kind, Token.literal raw = .bare kind raw ∧ Token.isLexeme kind raw = true ∧
      (kind = .number ∨ kind = .string ∨ kind = .keyword ∧ (raw = "true" ∨ raw = "false")) := by
  have htruth : ∀ kind c, c ∈ raw.toList.head? → Token.starts kind c = true →
      kind = .number ∨ kind = .string → ¬ (raw = "true" ∨ raw = "false") := by
    intro kind c hc hstart hkind hraw
    rcases hraw with rfl | rfl <;> obtain rfl := Option.some.inj hc <;>
      rcases hkind with rfl | rfl <;> cases hstart
  rcases h with (⟨h, -⟩ | h) | (⟨h, -⟩ | h) | rfl | rfl
  · cases h
  · obtain ⟨c, hc, hstart⟩ := isLexeme_head h
    refine ⟨.number, ?_, h, .inl rfl⟩
    have hquote : Source.isQuote c = false := by
      cases hq : Source.isQuote c with
      | false => rfl
      | true =>
        rcases Token.eq_of_isQuote hq with rfl | rfl <;> cases hstart
    unfold literal
    rw [if_neg (htruth _ c hc hstart (.inl rfl)), Option.mem_def.mp hc, if_neg (by simp [hquote])]
  · cases h
  · obtain ⟨c, hc, hstart⟩ := isLexeme_head h
    refine ⟨.string, ?_, h, .inr (.inl rfl)⟩
    have hquote : Source.isQuote c = true := hstart
    unfold literal
    rw [if_neg (htruth _ c hc hstart (.inr rfl)), Option.mem_def.mp hc, if_pos (by simp [hquote])]
  · exact ⟨.keyword, rfl, by decide, .inr (.inr ⟨rfl, .inl rfl⟩)⟩
  · exact ⟨.keyword, rfl, by decide, .inr (.inr ⟨rfl, .inr rfl⟩)⟩

/-- An array with subscripts. -/
def Expr.isIndex : Expr → Bool
  | .index .. => true
  | _ => false

namespace Reading

variable {α β : Type} {t : Token} {ts rest : List Token}

/-! ## Single steps -/

theorem bind_of_ok {x : Reading α} {f : α → Reading β} {a : α} (h : x ts = .ok (a, rest)) :
    (x >>= f) ts = f a rest := by
  rw [bind_apply, h]

theorem bind_of_error {x : Reading α} {f : α → Reading β} {e : Stop} (h : x ts = .error e) :
    (x >>= f) ts = .error e := by
  rw [bind_apply, h]

@[simp] theorem current_cons : current (t :: ts) = .ok (t, t :: ts) := rfl

@[simp] theorem here_cons : here (t :: ts) = .ok (t.pos, t :: ts) := rfl

theorem advance_cons (h : t.kind ≠ .eof) : advance (t :: ts) = .ok (t, ts) := by
  simp [advance, h]

theorem isAt_cons (p : Pattern) : isAt p (t :: ts) = .ok (p.fits t, t :: ts) := rfl

theorem accept_of_fits {p : Pattern} (h : p.fits t = true) (hp : p.kind ≠ .eof) :
    accept p (t :: ts) = .ok (some t, ts) := by
  unfold accept
  rw [bind_of_ok current_cons, if_pos h, bind_of_ok (advance_cons (ne_eof_of_fits h hp))]
  rfl

theorem accept_of_not_fits {p : Pattern} (h : p.fits t = false) :
    accept p (t :: ts) = .ok (none, t :: ts) := by
  unfold accept
  rw [bind_of_ok current_cons, if_neg (by simp [h])]
  rfl

theorem expect_of_fits {p : Pattern} (reason : Refusal) (h : p.fits t = true)
    (hp : p.kind ≠ .eof) : expect p reason (t :: ts) = .ok (t, ts) := by
  unfold expect
  rw [bind_of_ok (accept_of_fits h hp)]
  rfl

end Reading

/-! ## Where expressions end -/

namespace Token

open Reading (loosest)

/-- The token does not go on with an expression of level `n`: it is no call, field,
subscript or change by one, and no operator that binds more tightly than the level. -/
def ends (n : Nat) (t : Token) : Bool :=
  !Pattern.openParen.fits t && !Pattern.dot.fits t && !Pattern.openBracket.fits t &&
    t.updateOp?.isNone && t.binaryOp?.all (·.precedence ≤ loosest - n)

/-- The token does not go on with any expression. -/
def endsAll (t : Token) : Bool :=
  t.ends loosest && t.assignOp?.isNone

/-- The token may be the first one of an expression: it is a word, a number, a string, an
operator or an opening bracket. -/
def begins (t : Token) : Bool :=
  Pattern.openParen.fits t ||
    decide (t.kind ∈ [Kind.identifier, .keyword, .number, .string, .operator])

/-- What an expression may start with does not fit a sign that it may not start with. -/
theorem fits_of_begins {p : Pattern} {text : String} {t : Token} (h : t.begins = true)
    (hp : p.text = some text) (hbegins : p.token.begins = false) : p.fits t = false := by
  cases hfits : p.fits t with
  | false => rfl
  | true =>
    have htoken : t.begins = p.token.begins := by
      unfold begins Pattern.fits
      rw [Reading.kind_of_fits hfits, Reading.text_of_fits hfits hp]
      simp [Pattern.token, bare, hp]
    rw [htoken, hbegins] at h
    cases h

theorem ends_of_le {m n : Nat} {t : Token} (hmn : m ≤ n) (h : t.ends n = true) :
    t.ends m = true := by
  unfold ends at h ⊢
  cases hop : t.binaryOp? with
  | none => simpa [hop] using h
  | some op =>
    simp only [hop, Option.all_some, Bool.and_eq_true, decide_eq_true_eq] at h ⊢
    exact ⟨h.1, by omega⟩

end Token

namespace Reading

variable {t : Token} {ts us rest : List Token} {e : Expr} {n : Nat}

/-- The tokens are read as `e` by the level `n`. -/
def Spells (n : Nat) (ts : List Token) (e : Expr) : Prop :=
  ∀ (t : Token) (rest : List Token), t.ends n = true →
    levelWith nested n (ts ++ t :: rest) = .ok (e, t :: rest)

/-- The tokens are read as `e` by the level above `n`, which then goes on with more
operators of that level. -/
def SpellsLeft (n : Nat) (ts : List Token) (e : Expr) : Prop :=
  ∀ (t : Token) (rest : List Token), t.ends n = true →
    levelWith nested (n + 1) (ts ++ t :: rest) =
      iterate (joinWith (levelOp? n) (levelWith nested n)) e (t :: rest)

/-- The tokens are read as the operand `e`, which then goes on with calls, fields and
subscripts; more subscripts would join those that the tokens end with, if they do. -/
def SpellsBase (subscripted : Bool) (ts : List Token) (e : Expr) : Prop :=
  ∀ (t : Token) (rest : List Token), Pattern.openParen.fits t = false →
    (subscripted = true → Pattern.openBracket.fits t = false) →
    primaryWith nested (ts ++ t :: rest) = suffixesWith nested e (t :: rest)

/-- The tokens are read as `e` where any expression may stand. -/
def SpellsWhole (ts : List Token) (e : Expr) : Prop :=
  ∀ (t : Token) (rest : List Token), t.endsAll = true →
    expression (ts ++ t :: rest) = .ok (e, t :: rest)

@[simp] theorem nested_expression : nested.expression = expression := rfl

@[simp] theorem nested_initializer : nested.initializer = initializer := rfl

/-! ## Operators before an operand -/

theorem unaryWith_of_none {inner : Nested} (h : t.unaryOp? = none) :
    unaryWith inner (t :: ts) = primaryWith inner (t :: ts) := by
  have hsigns : collect (fun t => t.unaryOp?.map (t.pos, ·)) (t :: ts) = .ok ([], t :: ts) := by
    simp [collect, h]
  unfold unaryWith
  rw [bind_of_ok hsigns, bind_apply]
  cases primaryWith inner (t :: ts) <;> rfl

theorem unaryWith_of_some {inner : Nested} {op : UnaryOp} (h : t.unaryOp? = some op)
    (he : unaryWith inner ts = .ok (e, rest)) :
    unaryWith inner (t :: ts) = .ok (.unary t.pos op e, rest) := by
  unfold unaryWith at he ⊢
  obtain ⟨signs, mid, hsigns, hmid⟩ := bind_eq_ok_iff.mp he
  obtain ⟨operand, rest', hoperand, hrest⟩ := bind_eq_ok_iff.mp hmid
  have hcollect : collect (fun t => t.unaryOp?.map (t.pos, ·)) (t :: ts) =
      .ok ((t.pos, op) :: signs, mid) := by
    simp [collect, h, hsigns]
  rw [bind_of_ok hcollect, bind_of_ok hoperand]
  cases hrest
  rfl

/-- No operand starts with an operator, or with a token that no expression starts with. -/
theorem primaryWith_refused {inner : Nested} {t : Token}
    (h : t.begins = false ∨ t.kind = .operator) (ts : List Token) :
    primaryWith inner (t :: ts) = .error (.refused (.unexpected t.description) t ts) := by
  have hparen : Pattern.openParen.fits t = false := by
    rcases h with h | h
    · exact (Bool.or_eq_false_iff.mp h).1
    · simp [Pattern.fits, Pattern.openParen, h]
  have hkind : t.kind ≠ .keyword ∧ t.kind ≠ .number ∧ t.kind ≠ .string ∧ t.kind ≠ .identifier := by
    rcases h with h | h
    · simp only [Token.begins, List.mem_cons, List.not_mem_nil, or_false, Bool.or_eq_false_iff,
        decide_eq_false_iff_not, not_or] at h
      exact ⟨h.2.2.1, h.2.2.2.1, h.2.2.2.2.1, h.2.1⟩
    · simp [h]
  obtain ⟨hkeyword, hnumber, hstring, hname⟩ := hkind
  unfold primaryWith
  rw [bind_of_ok current_cons, hparen]
  simp [Pattern.fits, Pattern.keyword, hkeyword, hnumber, hstring, hname]
  rfl

/-! ## Where no expression starts -/

theorem levelWith_of_error {inner : Nested} {stop : Stop} (h : unaryWith inner ts = .error stop)
    (n : Nat) : levelWith inner n ts = .error stop := by
  induction n with
  | zero => exact h
  | succ n ih =>
    rw [levelWith_succ, leftAssoc_eq]
    exact bind_of_error ih

theorem expression_refused {t : Token} (h : t.begins = false) (ts : List Token) :
    expression (t :: ts) = .error (.refused (.unexpected t.description) t ts) := by
  have hsign : t.unaryOp? = none := by
    cases hop : t.unaryOp? with
    | none => rfl
    | some op => simp [Token.begins, (Token.unaryOp?_eq_some hop).1] at h
  rw [expression_eq]
  unfold assigningWith
  refine bind_of_error (levelWith_of_error ?_ _)
  rw [unaryWith_of_none hsign, primaryWith_refused (.inl h)]

/-- What spells an expression has a first token, with which an expression may start. -/
theorem SpellsWhole.exists_cons (h : SpellsWhole ts e) :
    ∃ t us, ts = t :: us ∧ t.begins = true := by
  have hok := h Pattern.closeBracket.token [] rfl
  cases ts with
  | nil =>
    rw [List.nil_append, expression_refused rfl] at hok
    cases hok
  | cons t us =>
    refine ⟨t, us, rfl, ?_⟩
    cases hbegins : t.begins with
    | true => rfl
    | false =>
      rw [List.cons_append, expression_refused hbegins] at hok
      cases hok

/-! ## Lists of expressions -/

section Lists

variable {α : Type} {f : α → List Token} {g : α → Expr}

/-- Lists of tokens, each behind a comma. -/
def continued (f : α → List Token) (as : List α) : List Token :=
  as.flatMap fun a => Pattern.comma.token :: f a

/-- Lists of tokens with commas between them. -/
def separated (f : α → List Token) : List α → List Token
  | [] => []
  | a :: as => f a ++ continued f as

/-- Lists of tokens, each in square brackets. -/
def bracketed (f : α → List Token) (as : List α) : List Token :=
  as.flatMap fun a => Pattern.openBracket.token :: f a ++ [Pattern.closeBracket.token]

theorem continued_cons (a : α) (as : List α) (us : List Token) :
    continued f (a :: as) ++ us = Pattern.comma.token :: (f a ++ (continued f as ++ us)) := by
  simp [continued]

theorem bracketed_cons (a : α) (as : List α) (us : List Token) :
    bracketed f (a :: as) ++ us =
      Pattern.openBracket.token ::
        (f a ++ Pattern.closeBracket.token :: (bracketed f as ++ us)) := by
  simp [bracketed]

theorem separated_map {β : Type} (k : β → α) (bs : List β) :
    separated f (bs.map k) = separated (fun b => f (k b)) bs := by
  cases bs with
  | nil => rfl
  | cons b bs => simp [separated, continued, List.flatMap_map]

theorem bracketed_map {β : Type} (k : β → α) (bs : List β) :
    bracketed f (bs.map k) = bracketed (fun b => f (k b)) bs := by
  simp [bracketed, List.flatMap_map]

/-- What is continued starts with a comma, or else with what comes behind it. -/
theorem exists_continued (as : List α) (ht : t.endsAll = true) (rest : List Token) :
    ∃ u us, continued f as ++ t :: rest = u :: us ∧ u.endsAll = true := by
  cases as with
  | nil => exact ⟨t, rest, rfl, ht⟩
  | cons a as => exact ⟨_, _, continued_cons a as _, by decide⟩

/-- A reading of expressions: it takes tokens, and it reads whatever spells one. -/
structure ReadsSpelled (item : Reading Expr) : Prop where
  tracks : ∀ us, Tracks id .unrestricted
    (fun e rest => rest.length < us.length ∧ e.WellFormed .unrestricted) item item us
  read : ∀ {ts : List Token} {e : Expr}, SpellsWhole ts e → ∀ (t : Token) (rest : List Token),
    t.endsAll = true → item (ts ++ t :: rest) = .ok (e, t :: rest)

theorem readsSpelled_expression : ReadsSpelled expression :=
  ⟨fun _ => Tracks.expression, fun h => h⟩

/-- An element between braces may be an expression. -/
theorem readsSpelled_elementWith : ReadsSpelled (elementWith nested) := by
  refine ⟨fun us => Tracks.elementWith (Nested.tracksBelow_nested _) (Nat.lt_succ_self us.length),
    ?_⟩
  intro ts e h t rest ht
  have hread := h t rest ht
  obtain ⟨u, us, rfl, hbegins⟩ := h.exists_cons
  have hnot : Pattern.openBrace.fits u = false := Token.fits_of_begins hbegins rfl rfl
  unfold elementWith
  rw [List.cons_append, bind_of_ok (isAt_cons _), hnot, if_neg Bool.false_ne_true]
  exact hread

/-- Items behind commas. -/
theorem many_continued {item : Reading Expr} (hitem : ReadsSpelled item) {as : List α}
    (h : ∀ a ∈ as, SpellsWhole (f a) (g a)) (ht : t.endsAll = true)
    (hcomma : Pattern.comma.fits t = false) (rest : List Token) :
    many Pattern.comma.fits (advance >>= fun _ => item) (continued f as ++ t :: rest) =
      .ok (as.map g, t :: rest) := by
  induction as with
  | nil => exact many_of_not_wanted hcomma
  | cons a as ih =>
    have ih := ih fun b hb => h b (List.mem_cons_of_mem a hb)
    rw [continued_cons]
    refine many_of_wanted ?_ rfl ?_ ih
    · intro u us hu
      refine (Tracks.behind (by decide) hu (hitem.tracks us)).mono ?_
      intro e rest _ h
      exact h.1
    · rw [bind_of_ok (advance_cons (by decide))]
      obtain ⟨u, us, heq, hu⟩ := exists_continued (f := f) as ht rest
      rw [heq]
      exact hitem.read (h a List.mem_cons_self) u us hu

/-- Items with commas between them, up to a closing bracket or brace. -/
theorem separated_read {β : Type} {item : Reading Expr} (hitem : ReadsSpelled item)
    {close : Pattern} (hclose : close = .closeParen ∨ close = .closeBrace) (reason : Refusal)
    (build : List Expr → β) {as : List α} (h : ∀ a ∈ as, SpellsWhole (f a) (g a))
    (rest : List Token) :
    (accept close >>= fun r =>
      if r.isSome then pure (build [])
      else item >>= fun first =>
        many Pattern.comma.fits (advance >>= fun _ => item) >>= fun others =>
          expect close reason >>= fun _ => pure (build (first :: others)))
      (separated f as ++ close.token :: rest) = .ok (build (as.map g), rest) := by
  have hfits : close.fits close.token = true := by rcases hclose with rfl | rfl <;> rfl
  have hkind : close.kind ≠ .eof := by rcases hclose with rfl | rfl <;> decide
  cases as with
  | nil =>
    rw [separated, List.nil_append, bind_of_ok (accept_of_fits hfits hkind)]
    rfl
  | cons a as =>
    have hends : close.token.endsAll = true := by rcases hclose with rfl | rfl <;> rfl
    have hcomma : Pattern.comma.fits close.token = false := by rcases hclose with rfl | rfl <;> rfl
    have ha := h a List.mem_cons_self
    have has := many_continued hitem (fun b hb => h b (List.mem_cons_of_mem a hb)) hends hcomma rest
    obtain ⟨u, us, heq, hu⟩ := exists_continued (f := f) as hends rest
    have hfirst := hitem.read ha u us hu
    obtain ⟨v, vs, hcons, hbegins⟩ := ha.exists_cons
    have hnot : close.fits v = false := by
      rcases hclose with rfl | rfl <;> exact Token.fits_of_begins hbegins rfl rfl
    rw [separated, List.append_assoc, heq]
    rw [hcons, List.cons_append] at hfirst ⊢
    rw [bind_of_ok (accept_of_not_fits hnot)]
    dsimp only [Option.isSome]
    rw [if_neg Bool.false_ne_true, bind_of_ok hfirst, ← heq, bind_of_ok has,
      bind_of_ok (expect_of_fits _ hfits hkind)]
    rfl

/-- The arguments of a call, up to the closing bracket. -/
theorem argumentsWith_separated {as : List α} (h : ∀ a ∈ as, SpellsWhole (f a) (g a))
    (rest : List Token) :
    argumentsWith nested (separated f as ++ Pattern.closeParen.token :: rest) =
      .ok (as.map g, rest) :=
  separated_read readsSpelled_expression (.inl rfl) (.expected "')' after arguments") (fun es => es)
    h rest

/-- Elements between braces. -/
theorem initializer_separated {as : List α} (h : ∀ a ∈ as, SpellsWhole (f a) (g a))
    (rest : List Token) :
    initializer (Pattern.openBrace.token ::
        (separated f as ++ Pattern.closeBrace.token :: rest)) =
      .ok (.arrayLiteral .start (as.map g), rest) := by
  rw [initializer_eq]
  exact separated_read readsSpelled_elementWith (.inr rfl)
    (.expected "'\x7d' after array literal") (Expr.arrayLiteral .start) h rest

/-- A chain of subscripts. -/
theorem subscriptsWith_bracketed {as : List α} (h : ∀ a ∈ as, SpellsWhole (f a) (g a))
    (ht : Pattern.openBracket.fits t = false) (rest : List Token) :
    subscriptsWith nested (bracketed f as ++ t :: rest) = .ok (as.map g, t :: rest) := by
  induction as with
  | nil => exact many_of_not_wanted ht
  | cons a as ih =>
    have ih := ih fun b hb => h b (List.mem_cons_of_mem a hb)
    rw [bracketed_cons]
    refine many_of_wanted ?_ rfl ?_ ih
    · intro u us hu
      refine (Tracks.subscriptWith (Nested.tracksBelow_nested _) (Nat.lt_succ_self _) hu _).mono ?_
      intro e rest _ h
      exact h.1
    · have ha := h a List.mem_cons_self Pattern.closeBracket.token (bracketed f as ++ t :: rest) rfl
      rw [bind_of_ok (advance_cons (by decide)), nested_expression, bind_of_ok ha,
        bind_of_ok (expect_of_fits _ rfl (by decide))]
      rfl

/-- A pair of square brackets behind a type takes tokens. -/
theorem tracks_dimension (t : Token) (us : List Token) (ht : Pattern.openBracket.fits t = true) :
    Tracks id .unrestricted (fun _ rest => rest.length ≤ us.length) (dimensionWith nested)
      (dimensionWith nested) (t :: us) := by
  refine (Tracks.dimensionWith (Nested.tracksBelow_nested _) (Nat.lt_succ_self _) ht).mono ?_
  intro r rest _ h
  exact h.1

/-- The sizes of an array. -/
theorem many_dimensions {as : List α} (h : ∀ a ∈ as, SpellsWhole (f a) (g a))
    (ht : Pattern.openBracket.fits t = false) (rest : List Token) :
    many Pattern.openBracket.fits (dimensionWith nested) (bracketed f as ++ t :: rest) =
      .ok (as.map fun a => some (g a), t :: rest) := by
  induction as with
  | nil => exact many_of_not_wanted ht
  | cons a as ih =>
    have ih := ih fun b hb => h b (List.mem_cons_of_mem a hb)
    have ha := h a List.mem_cons_self
    rw [bracketed_cons]
    refine many_of_wanted tracks_dimension rfl ?_ ih
    obtain ⟨u, us, hcons, hbegins⟩ := ha.exists_cons
    have hnot : Pattern.closeBracket.fits u = false := Token.fits_of_begins hbegins rfl rfl
    have hsize := ha Pattern.closeBracket.token (bracketed f as ++ t :: rest) rfl
    unfold dimensionWith
    rw [bind_of_ok (advance_cons (by decide))]
    rw [hcons, List.cons_append] at hsize ⊢
    rw [bind_of_ok (accept_of_not_fits hnot)]
    dsimp only [Option.isSome]
    rw [if_neg Bool.false_ne_true, nested_expression, bind_of_ok hsize,
      bind_of_ok (expect_of_fits _ rfl (by decide))]
    rfl

end Lists

/-! ## Operands with calls, fields and subscripts -/

/-- One suffix after the other. -/
theorem suffixesWith_of_some {node : Expr} (h : extendWith nested node ts = .ok (some e, rest)) :
    suffixesWith nested node ts = suffixesWith nested e rest := by
  have hiterate : iterate (extendWith nested) node ts = iterate (extendWith nested) e rest := by
    refine iterate_of_some (fun _ => rfl) ?_ h
    intro us node
    have hin : Nested.TracksBelow id .unrestricted nested nested us.length :=
      Nested.tracksBelow_nested _
    have htracks := Tracks.extendWith hin (Nat.le_refl _) node
    rw [Placed.move_id] at htracks
    refine htracks.mono ?_
    intro r rest _ h e he
    exact (h e he).1
  unfold suffixesWith
  rw [bind_apply, hiterate, bind_apply]

theorem extendWith_of_ends (ht : t.ends n = true) (node : Expr) :
    extendWith nested node (t :: ts) = .ok (none, t :: ts) := by
  simp only [Token.ends, Bool.and_eq_true, Bool.not_eq_true'] at ht
  unfold extendWith
  rw [bind_of_ok current_cons]
  simp [ht.1.1.1.1, ht.1.1.1.2, ht.1.1.2]

theorem suffixesWith_of_ends (ht : t.ends n = true) (node : Expr) :
    suffixesWith nested node (t :: ts) = .ok (node, t :: ts) := by
  have hop : t.updateOp? = none := by
    simp only [Token.ends, Bool.and_eq_true] at ht
    simpa using ht.1.2
  unfold suffixesWith
  rw [bind_of_ok (iterate_of_none (extendWith_of_ends ht node)), bind_of_ok current_cons, hop]
  rfl

namespace SpellsBase

variable {subscripted : Bool}

theorem name (name : String) : SpellsBase false [.word name] (.name .start name) := by
  intro t rest _ _
  rfl

/-- An expression in round brackets. -/
theorem paren (h : SpellsWhole ts e) :
    SpellsBase false (Pattern.openParen.token :: ts ++ [Pattern.closeParen.token]) e := by
  intro t rest _ _
  have hopen : ∀ us, primaryWith nested (Pattern.openParen.token :: us) =
      (expression >>= fun e => expect .closeParen (.expected "')' after expression") >>= fun _ =>
        suffixesWith nested e) us := fun _ => rfl
  rw [List.append_assoc, List.cons_append, hopen, List.singleton_append,
    bind_of_ok (h Pattern.closeParen.token (t :: rest) rfl),
    bind_of_ok (expect_of_fits _ rfl (by decide))]

theorem call {α : Type} {f : α → List Token} {g : α → Expr} {args : List α} (name : String)
    (hargs : ∀ a ∈ args, SpellsWhole (f a) (g a)) :
    SpellsBase false
      (.word name :: Pattern.openParen.token :: separated f args ++ [Pattern.closeParen.token])
      (.call .start name (args.map g)) := by
  intro t rest _ _
  have hopen : ∀ us, primaryWith nested (.word name :: us) =
      suffixesWith nested (.name .start name) us := fun _ => rfl
  have hcall : ∀ us, extendWith nested (.name .start name) (Pattern.openParen.token :: us) =
      (argumentsWith nested >>= fun args => pure (some (.call .start name args))) us :=
    fun _ => rfl
  simp only [List.cons_append, List.append_assoc]
  rw [hopen]
  refine suffixesWith_of_some ?_
  rw [hcall, bind_of_ok (argumentsWith_separated hargs _)]
  rfl

/-- What stands behind a point and a name that is no call. -/
theorem extendWith_field {node : Expr} {name : String} (ht : Pattern.openParen.fits t = false) :
    extendWith nested node (Pattern.dot.token :: .word name :: t :: rest) =
      .ok (some (if name = "length" then .length node.pos node else .property node.pos node name),
        t :: rest) := by
  have hfield : extendWith nested node (Pattern.dot.token :: .word name :: t :: rest) =
      (accept .openParen >>= fun r =>
        if r.isSome then argumentsWith nested >>= fun args =>
          pure (some (.methodCall node.pos node name args))
        else if name = "length" then pure (some (.length node.pos node))
        else pure (some (.property node.pos node name))) (t :: rest) := rfl
  rw [hfield, bind_of_ok (accept_of_not_fits ht), if_neg (by simp)]
  split <;> rfl

theorem property (h : SpellsBase subscripted ts e) {name : String} (hname : name ≠ "length") :
    SpellsBase false (ts ++ [Pattern.dot.token, .word name]) (.property e.pos e name) := by
  intro t rest ht _
  rw [List.append_assoc, List.cons_append, List.singleton_append,
    h Pattern.dot.token _ rfl (fun _ => rfl)]
  refine suffixesWith_of_some ?_
  rw [extendWith_field ht, if_neg hname]

theorem length (h : SpellsBase subscripted ts e) :
    SpellsBase false (ts ++ [Pattern.dot.token, .word "length"]) (.length e.pos e) := by
  intro t rest ht _
  rw [List.append_assoc, List.cons_append, List.singleton_append,
    h Pattern.dot.token _ rfl (fun _ => rfl)]
  refine suffixesWith_of_some ?_
  rw [extendWith_field ht, if_pos rfl]

theorem methodCall (h : SpellsBase subscripted ts e) {α : Type} {f : α → List Token}
    {g : α → Expr} {args : List α} (name : String) (hargs : ∀ a ∈ args, SpellsWhole (f a) (g a)) :
    SpellsBase false
      (ts ++ Pattern.dot.token :: .word name :: Pattern.openParen.token ::
        separated f args ++ [Pattern.closeParen.token])
      (.methodCall e.pos e name (args.map g)) := by
  intro t rest _ _
  have hcall : ∀ us, extendWith nested e
      (Pattern.dot.token :: .word name :: Pattern.openParen.token :: us) =
        (argumentsWith nested >>= fun args =>
          pure (some (.methodCall e.pos e name args))) us := fun _ => rfl
  simp only [List.cons_append, List.append_assoc]
  rw [h Pattern.dot.token _ rfl (fun _ => rfl)]
  refine suffixesWith_of_some ?_
  rw [hcall, bind_of_ok (argumentsWith_separated hargs _)]
  rfl

theorem index (h : SpellsBase false ts e) {α : Type} {f : α → List Token} {g : α → Expr}
    {indices : List α} (hne : indices ≠ []) (hindices : ∀ a ∈ indices, SpellsWhole (f a) (g a)) :
    SpellsBase true (ts ++ bracketed f indices) (.index e.pos e (indices.map g)) := by
  intro t rest _ ht
  have hindex : ∀ us, extendWith nested e (Pattern.openBracket.token :: us) =
      (subscriptsWith nested >>= fun indices => pure (some (.index e.pos e indices)))
        (Pattern.openBracket.token :: us) := fun _ => rfl
  have hsubscripts := subscriptsWith_bracketed hindices (ht rfl) rest
  cases indices with
  | nil => exact absurd rfl hne
  | cons i indices =>
    rw [bracketed_cons] at hsubscripts
    rw [List.append_assoc, bracketed_cons, h Pattern.openBracket.token _ rfl (by simp)]
    refine suffixesWith_of_some ?_
    rw [hindex, bind_of_ok hsubscripts]
    rfl

end SpellsBase

/-! ## Levels of operators -/

theorem Spells.literal {kind : Kind} {raw : String}
    (h : kind = .number ∨ kind = .string ∨ kind = .keyword ∧ (raw = "true" ∨ raw = "false")) :
    Spells 0 [.bare kind raw] (.literal .start raw) := by
  intro t rest _
  rcases h with rfl | rfl | ⟨rfl, rfl | rfl⟩ <;> rfl

/-- What is read as an operand is read so where no sign stands before it. -/
theorem Spells.of_primary
    (h : ∀ (t : Token) (rest : List Token), t.ends 0 = true →
      primaryWith nested (ts ++ t :: rest) = .ok (e, t :: rest)) : Spells 0 ts e := by
  intro t rest ht
  have hprimary := h t rest ht
  cases hcons : ts ++ t :: rest with
  | nil => simp at hcons
  | cons u us =>
    rw [hcons] at hprimary
    have hsign : u.unaryOp? = none := by
      cases hop : u.unaryOp? with
      | none => rfl
      | some op =>
        have hkind := (Token.unaryOp?_eq_some hop).1
        rw [primaryWith_refused (.inr hkind)] at hprimary
        cases hprimary
    rw [levelWith, unaryWith_of_none hsign, hprimary]

theorem SpellsBase.spells {subscripted : Bool} (h : SpellsBase subscripted ts e) :
    Spells 0 ts e := by
  refine Spells.of_primary ?_
  intro t rest ht
  have hends := ht
  simp only [Token.ends, Bool.and_eq_true, Bool.not_eq_true'] at hends
  rw [h t rest hends.1.1.1.1 fun _ => hends.1.1.2, suffixesWith_of_ends ht]

/-- A change by one behind its operand. -/
theorem SpellsBase.update {subscripted : Bool} (h : SpellsBase subscripted ts e) {op : UpdateOp}
    (hop : op = .increment ∨ op = .decrement) :
    Spells 0 (ts ++ [.symbol op.symbol]) (.update e.pos op e) := by
  refine Spells.of_primary ?_
  intro t rest _
  have hsuffix : ∀ us, suffixesWith nested e (.symbol op.symbol :: us) =
      .ok (.update e.pos op e, us) := by
    intro us
    have hextend : extendWith nested e (.symbol op.symbol :: us) =
        .ok (none, .symbol op.symbol :: us) := by rcases hop with rfl | rfl <;> rfl
    unfold suffixesWith
    rw [bind_of_ok (iterate_of_none hextend)]
    rcases hop with rfl | rfl <;> rfl
  rw [List.append_assoc, List.singleton_append, h _ _ ?_ ?_, hsuffix]
  · rcases hop with rfl | rfl <;> rfl
  · intro _
    rcases hop with rfl | rfl <;> rfl

/-- The word before a fresh array or object. -/
def newWord : Token :=
  (Pattern.keyword "new").token

/-- A fresh object with its arguments. -/
theorem Spells.newObject {α : Type} {f : α → List Token} {g : α → Expr} {args : List α}
    (name : String) (hargs : ∀ a ∈ args, SpellsWhole (f a) (g a)) :
    Spells 0
      (newWord :: .word name :: Pattern.openParen.token :: separated f args ++
        [Pattern.closeParen.token])
      (.newObject .start name (args.map g)) := by
  refine Spells.of_primary ?_
  intro t rest _
  have hopen : ∀ us, primaryWith nested
      (newWord :: .word name :: Pattern.openParen.token :: us) =
        (argumentsWith nested >>= fun args => pure (.newObject .start name args)) us :=
    fun _ => rfl
  simp only [List.cons_append, List.append_assoc]
  rw [hopen, bind_of_ok (argumentsWith_separated hargs _)]
  rfl

/-- What stands behind `new` and a type that square brackets follow. -/
theorem primaryWith_newArray {type : Token} (htype : type.kind = .keyword ∨ type.kind = .identifier)
    (us : List Token) :
    primaryWith nested (newWord :: type :: Pattern.openBracket.token :: us) =
      (many Pattern.openBracket.fits (dimensionWith nested) >>= fun dims =>
        match dims.getLast? with
        | none => refuse (.expected "'[' after array type")
        | some last => isAt .openBrace >>= fun b =>
          if last.isNone && b then initializer
          else
            match dims.mapM id with
            | some sizes => pure (.newArray .start type.text sizes)
            | none => refuse (.expected "array initializer"))
        (Pattern.openBracket.token :: us) := by
  obtain ⟨kind, text, p⟩ := type
  rcases htype with rfl | rfl <;> rfl

/-- A fresh array with its sizes. -/
theorem Spells.newArray {α : Type} {f : α → List Token} {g : α → Expr} {dims : List α}
    {type : Token} (htype : type.kind = .keyword ∨ type.kind = .identifier) (hne : dims ≠ [])
    (hdims : ∀ a ∈ dims, SpellsWhole (f a) (g a)) :
    Spells 0 (newWord :: type :: bracketed f dims)
      (.newArray .start type.text (dims.map g)) := by
  refine Spells.of_primary ?_
  intro t rest ht
  have hbracket : Pattern.openBracket.fits t = false := by
    simp only [Token.ends, Bool.and_eq_true, Bool.not_eq_true'] at ht
    exact ht.1.1.2
  have hread := many_dimensions hdims hbracket rest
  cases dims with
  | nil => exact absurd rfl hne
  | cons d dims =>
    have hsizes : ((d :: dims).map fun a => some (g a)).mapM id = some ((d :: dims).map g) := by
      rw [mapM_id_eq_some, List.map_map]
      rfl
    obtain ⟨last, hlast⟩ : ∃ e, ((d :: dims).map fun a => some (g a)).getLast? = some (some e) := by
      obtain ⟨a, ha⟩ := Option.ne_none_iff_exists'.mp
        (show (d :: dims).getLast? ≠ none by simp)
      exact ⟨g a, by rw [List.getLast?_map, ha]; rfl⟩
    rw [bracketed_cons] at hread
    rw [List.cons_append, List.cons_append, bracketed_cons, primaryWith_newArray htype,
      bind_of_ok hread, hlast]
    dsimp only
    rw [bind_of_ok (isAt_cons _), hsizes]
    rfl

/-- A fresh array with its elements. -/
theorem Spells.arrayLiteral {α : Type} {f : α → List Token} {g : α → Expr} {elements : List α}
    {type : Token} (htype : type.kind = .keyword ∨ type.kind = .identifier)
    (helements : ∀ a ∈ elements, SpellsWhole (f a) (g a)) :
    Spells 0
      (newWord :: type :: Pattern.openBracket.token :: Pattern.closeBracket.token ::
        Pattern.openBrace.token :: separated f elements ++ [Pattern.closeBrace.token])
      (.arrayLiteral .start (elements.map g)) := by
  refine Spells.of_primary ?_
  intro t rest _
  have hpair : ∀ us, many Pattern.openBracket.fits (dimensionWith nested)
      (Pattern.openBracket.token :: Pattern.closeBracket.token :: Pattern.openBrace.token :: us) =
        .ok ([none], Pattern.openBrace.token :: us) := fun us =>
    many_of_wanted tracks_dimension rfl rfl (many_of_not_wanted rfl)
  simp only [List.cons_append, List.append_assoc]
  rw [primaryWith_newArray htype, bind_of_ok (hpair _)]
  exact initializer_separated helements (t :: rest)

/-- An operator before an operand. -/
theorem Spells.unary {op : UnaryOp} (hop : op = .not ∨ op = .neg) (h : Spells 0 ts e) :
    Spells 0 (.symbol op.symbol :: ts) (.unary .start op e) := by
  intro t rest ht
  refine unaryWith_of_some ?_ (h t rest ht)
  rcases hop with rfl | rfl <;> rfl

theorem Spells.left (h : Spells n ts e) : SpellsLeft n ts e := by
  intro t rest ht
  rw [levelWith_succ, leftAssoc_eq]
  exact bind_of_ok (h t rest ht)

/-- The token of an operator is read as that operator. -/
theorem binaryOp?_symbol : ∀ op ∈ BinaryOp.all, (Token.symbol op.symbol).binaryOp? = some op := by
  decide

/-- An operator ends the levels that bind more tightly. -/
theorem ends_symbol {op : BinaryOp} (hop : op ∈ BinaryOp.all)
    (hlevel : op.precedence = loosest - n) :
    (Token.symbol op.symbol).ends n = true := by
  have hupdate : ∀ op ∈ BinaryOp.all, (Token.symbol op.symbol).updateOp? = none := by decide
  have hfits : ∀ p : Pattern, p.kind ≠ .operator → p.fits (.symbol op.symbol) = false := by
    intro p hp
    simp [Pattern.fits, Token.symbol, Token.bare, hp.symm]
  unfold Token.ends
  rw [hfits _ (by decide), hfits _ (by decide), hfits _ (by decide), hupdate op hop,
    binaryOp?_symbol op hop]
  simp [hlevel]

/-- An operator with its right operand. -/
theorem SpellsLeft.binary {op : BinaryOp} {l r : Expr} (hop : op ∈ BinaryOp.all)
    (hlevel : op.precedence = loosest - n) (hl : SpellsLeft n ts l) (hr : Spells n us r) :
    SpellsLeft n (ts ++ .symbol op.symbol :: us) (.binary l.pos op l r) := by
  intro t rest ht
  rw [List.append_assoc, List.cons_append, hl _ _ (ends_symbol hop hlevel)]
  refine iterate_of_some (fun _ => rfl) ?_ ?_
  · intro vs left
    have hin : Nested.TracksBelow id .unrestricted nested nested vs.length :=
      Nested.tracksBelow_nested _
    have hop : ∀ t op, levelOp? n t = some op → t.kind = .operator ∧ op ∈ BinaryOp.all :=
      fun _ _ => levelOp?_eq_some
    have htracks := Tracks.joinWith (fun _ => rfl) hop
      (fun ws hws => Tracks.levelWith hin n hws) (Nat.le_refl _) left
    rw [Placed.move_id] at htracks
    refine htracks.mono ?_
    intro r rest _ h e he
    exact (h e he).1
  · have hread : levelOp? n (.symbol op.symbol) = some op := by
      simp [levelOp?, binaryOp?_symbol op hop, hlevel]
    unfold joinWith
    rw [bind_of_ok current_cons, hread]
    dsimp only
    rw [bind_of_ok (advance_cons (by simp [Token.symbol, Token.bare])),
      bind_of_ok (hr t rest ht)]
    rfl

theorem SpellsLeft.spells (h : SpellsLeft n ts e) : Spells (n + 1) ts e := by
  intro t rest ht
  rw [h t rest (Token.ends_of_le (Nat.le_succ n) ht)]
  have hnone : levelOp? n t = none := by
    unfold Token.ends at ht
    unfold levelOp?
    cases hop : t.binaryOp? with
    | none => rfl
    | some op =>
      have hpositive : ∀ op ∈ BinaryOp.all, 0 < op.precedence := by decide
      have hpos := hpositive op (Token.binaryOp?_eq_some hop).2
      simp only [hop, Option.all_some, Bool.and_eq_true, decide_eq_true_eq] at ht
      have hlt : op.precedence ≠ loosest - n := by omega
      simp [hlt]
  refine iterate_of_none ?_
  unfold joinWith
  rw [bind_of_ok current_cons, hnone]
  rfl

theorem Spells.mono {m : Nat} (hmn : m ≤ n) (h : Spells m ts e) : Spells n ts e := by
  induction hmn with
  | refl => exact h
  | step _ ih => exact ih.left.spells

theorem Spells.whole (h : Spells n ts e) (hn : n ≤ loosest) : SpellsWhole ts e := by
  intro t rest ht
  unfold Token.endsAll at ht
  obtain ⟨hends, hassign⟩ := Bool.and_eq_true_iff.mp ht
  rw [expression_eq]
  unfold assigningWith
  rw [bind_of_ok (h.mono hn t rest hends), bind_of_ok current_cons,
    Option.isNone_iff_eq_none.mp hassign]
  rfl

/-- An assignment as a value. -/
theorem SpellsWhole.assign {target value : Expr} {op : AssignOp} (hop : op ∈ AssignOp.all)
    (htarget : target.isTarget = true) (ht : Spells loosest ts target)
    (hv : SpellsWhole us value) :
    SpellsWhole (ts ++ .symbol op.symbol :: us) (.assign target.pos target op value) := by
  have hends : ∀ op ∈ AssignOp.all, (Token.symbol op.symbol).ends loosest = true := by decide
  have hread : ∀ op ∈ AssignOp.all, (Token.symbol op.symbol).assignOp? = some op := by decide
  intro t rest hend
  rw [expression_eq]
  unfold assigningWith
  rw [List.append_assoc, List.cons_append, bind_of_ok (ht _ _ (hends op hop)),
    bind_of_ok current_cons, hread op hop]
  dsimp only
  rw [if_pos htarget, bind_of_ok (advance_cons (by simp [Token.symbol, Token.bare])),
    nested_expression, bind_of_ok (hv t rest hend)]
  rfl

end Reading

end Pseudocode
