import Pseudocode.Render.Expr
import Pseudocode.Proofs.Reader.Spelling
set_option autoImplicit false

/-!
# The brackets that rendering writes are enough

Rendering puts an expression into brackets where its place asks for it.  `Style.spell`
gives the tokens of what is written, brackets included, with a token of choice for each
operator.  Read with the operators of the subset, these tokens are the expression again,
except that chains of `&&` and of `||`, which are written without brackets, come back
grouped to the left.
-/

namespace Pseudocode

/-- The token of an operator. -/
def BinaryOp.token (op : BinaryOp) : Token :=
  .symbol op.symbol

namespace Style

/-- Tokens in their slot. -/
def placeTokens (style : Style) (slot : Slot) (e : Expr) (ts : List Token) : List Token :=
  if style.wraps slot e then Pattern.openParen.token :: ts ++ [Pattern.closeParen.token] else ts

mutual

/-- The tokens of an expression in its slot, with the token `word op` for the operator
`op`.  Only expressions whose text can be read again have tokens. -/
def spell (style : Style) (word : BinaryOp → Token) (slot : Slot) : Expr → List Token
  | .name _ n => [.word n]
  | .literal _ raw => [.literal raw]
  | .index _ base indices =>
    style.spell word .receiver base ++
      Reading.bracketed (fun ts => ts) (style.spellAll word indices)
  | .call _ n args =>
    .word n :: Pattern.openParen.token ::
      Reading.separated (fun ts => ts) (style.spellAll word args) ++ [Pattern.closeParen.token]
  | .methodCall _ receiver n args =>
    style.spell word .receiver receiver ++ Pattern.dot.token :: .word n ::
      Pattern.openParen.token ::
      Reading.separated (fun ts => ts) (style.spellAll word args) ++ [Pattern.closeParen.token]
  | .property _ receiver n =>
    style.spell word .receiver receiver ++ [Pattern.dot.token, .word n]
  | .unary p op operand =>
    style.placeTokens slot (.unary p op operand)
      (.symbol op.symbol :: style.spell word .prefixed operand)
  | .binary p op l r =>
    if op.isLogical then
      let w := style.linkWraps slot op (.binary p op l r)
      style.placeTokens slot (.binary p op l r)
        (style.spell word (.link op w) l ++ word op :: style.spell word (.link op w) r)
    else
      style.placeTokens slot (.binary p op l r)
        (style.spell word (.left op) l ++ word op :: style.spell word (.right op) r)
  | _ => []

/-- The tokens of expressions that stand on their own. -/
def spellAll (style : Style) (word : BinaryOp → Token) : List Expr → List (List Token)
  | [] => []
  | e :: es => style.spell word .whole e :: style.spellAll word es

end

theorem spellAll_eq (style : Style) (word : BinaryOp → Token) (es : List Expr) :
    style.spellAll word es = es.map (style.spell word .whole) := by
  induction es with
  | nil => rw [spellAll, List.map_nil]
  | cons e es ih => rw [spellAll, ih, List.map_cons]

variable {style : Style} {word : BinaryOp → Token} {slot : Slot}

theorem spell_index (p : Pos) (base : Expr) (indices : List Expr) :
    style.spell word slot (.index p base indices) =
      style.spell word .receiver base ++ Reading.bracketed (style.spell word .whole) indices := by
  rw [spell, spellAll_eq, Reading.bracketed_map]

theorem spell_call (p : Pos) (n : String) (args : List Expr) :
    style.spell word slot (.call p n args) =
      .word n :: Pattern.openParen.token :: Reading.separated (style.spell word .whole) args ++
        [Pattern.closeParen.token] := by
  rw [spell, spellAll_eq, Reading.separated_map]

theorem spell_methodCall (p : Pos) (receiver : Expr) (n : String) (args : List Expr) :
    style.spell word slot (.methodCall p receiver n args) =
      style.spell word .receiver receiver ++ Pattern.dot.token :: .word n ::
        Pattern.openParen.token :: Reading.separated (style.spell word .whole) args ++
        [Pattern.closeParen.token] := by
  rw [spell, spellAll_eq, Reading.separated_map]

end Style

/-! ## Expressions that can be read again -/

namespace Expr

/-- A literal. -/
def isLiteral : Expr → Bool
  | .literal .. => true
  | _ => false

/-- A minus sign before an operand. -/
def isNegation : Expr → Bool
  | .unary _ .neg _ => true
  | _ => false

/-- An expression without an operator on the outside. -/
def isOperand : Expr → Bool
  | .unary .. | .update .. | .binary .. | .assign .. => false
  | _ => true

mutual

/-- Expressions whose text can be read again: names, literals, calls, fields, subscripts
and operators, to any depth.  A literal has no calls, fields or subscripts, and an array
with subscripts has no further ones.  With `doubled`, a minus sign may stand directly
before another one. -/
def Readable (doubled : Bool) : Expr → Prop
  | .name _ n => Token.isLexeme .identifier n = true
  | .literal _ raw => Vocabulary.lexical.IsLiteral raw
  | .index _ base indices =>
    base.Readable doubled ∧ base.isLiteral = false ∧ base.isIndex = false ∧ indices ≠ [] ∧
      AllReadable doubled indices
  | .call _ n args => Token.isLexeme .identifier n = true ∧ AllReadable doubled args
  | .methodCall _ receiver n args =>
    receiver.Readable doubled ∧ receiver.isLiteral = false ∧
      Token.isLexeme .identifier n = true ∧ AllReadable doubled args
  | .property _ receiver n =>
    receiver.Readable doubled ∧ receiver.isLiteral = false ∧
      Token.isLexeme .identifier n = true ∧ n ≠ "length"
  | .unary _ op operand =>
    (op = .not ∨ op = .neg) ∧ operand.Readable doubled ∧
      (op = .neg → operand.isNegation = true → doubled = true)
  | .binary _ op l r => op ∈ BinaryOp.all ∧ l.Readable doubled ∧ r.Readable doubled
  | _ => False

/-- All of the expressions can be read again. -/
def AllReadable (doubled : Bool) : List Expr → Prop
  | [] => True
  | e :: es => e.Readable doubled ∧ AllReadable doubled es

end

@[simp] theorem allReadable_iff {doubled : Bool} {es : List Expr} :
    AllReadable doubled es ↔ ∀ e ∈ es, e.Readable doubled := by
  induction es with
  | nil => simp [AllReadable]
  | cons e es ih => simp [AllReadable, ih]

/-! ## Chains grouped to the left -/

/-- The operands of the chain of `op` that the right operand is, joined to the left
operand one after the other. -/
def attach (op : BinaryOp) (l : Expr) : Expr → Expr
  | .binary p op' a b =>
    if op' = op then .binary l.pos op (attach op l a) b
    else .binary l.pos op l (.binary p op' a b)
  | r => .binary l.pos op l r

mutual

/-- The expression with all its chains of `&&` and of `||` grouped to the left. -/
def regroup : Expr → Expr
  | .name p n => .name p n
  | .literal p raw => .literal p raw
  | .index p base indices => .index p base.regroup (regroupAll indices)
  | .call p n args => .call p n (regroupAll args)
  | .methodCall p receiver n args => .methodCall p receiver.regroup n (regroupAll args)
  | .property p receiver n => .property p receiver.regroup n
  | .length p operand => .length p operand.regroup
  | .newArray p elementType dims => .newArray p elementType (regroupAll dims)
  | .arrayLiteral p elements => .arrayLiteral p (regroupAll elements)
  | .newObject p typeName args => .newObject p typeName (regroupAll args)
  | .unary p op operand => .unary p op operand.regroup
  | .update p op operand => .update p op operand.regroup
  | .binary p op l r =>
    if op.isLogical then attach op l.regroup r.regroup else .binary p op l.regroup r.regroup
  | .assign p target op value => .assign p target.regroup op value.regroup
  | .unsupported p kind => .unsupported p kind

/-- Expressions with all their chains grouped to the left. -/
def regroupAll : List Expr → List Expr
  | [] => []
  | e :: es => e.regroup :: regroupAll es

end

theorem regroupAll_eq (es : List Expr) : regroupAll es = es.map regroup := by
  induction es with
  | nil => rfl
  | cons e es ih => rw [regroupAll, ih, List.map_cons]

@[simp] theorem pos_attach (op : BinaryOp) (l r : Expr) : (attach op l r).pos = l.pos := by
  cases r with
  | binary p op' a b =>
    unfold attach
    split <;> rfl
  | _ => rfl

/-- Joining operands one after the other is associative. -/
theorem attach_attach (op : BinaryOp) (l x y : Expr) :
    attach op l (attach op x y) = attach op (attach op l x) y := by
  induction y with
  | binary p op' a b iha ihb =>
    by_cases hop : op' = op
    · subst hop
      simp only [attach, if_true, pos_attach, iha]
    · simp [attach, hop]
  | _ => simp [attach]

theorem move_attach (φ : Pos → Pos) (op : BinaryOp) (l r : Expr) :
    Pseudocode.move φ (attach op l r) =
      attach op (Pseudocode.move φ l) (Pseudocode.move φ r) := by
  induction r with
  | binary p op' a b iha ihb =>
    by_cases hop : op' = op
    · subst hop
      simp only [attach, if_true, move_binary, iha, pos_move]
    · simp [attach, hop]
  | _ => simp [attach]

theorem outerOp?_attach (op : BinaryOp) (l r : Expr) : (attach op l r).outerOp? = some op := by
  cases r with
  | binary p op' a b =>
    unfold attach
    split <;> rfl
  | _ => rfl

theorem outerOp?_regroup (e : Expr) : e.regroup.outerOp? = e.outerOp? := by
  cases e with
  | binary p op l r =>
    unfold regroup
    split
    · exact outerOp?_attach op _ _
    · rfl
  | _ => rfl

theorem outerOp?_move (φ : Pos → Pos) (e : Expr) :
    (Pseudocode.move φ e).outerOp? = e.outerOp? := by
  cases e <;> rfl

/-- What is no chain of the operator is joined as it is. -/
theorem attach_of_ne {op : BinaryOp} {r : Expr} (h : r.outerOp? ≠ some op) (l : Expr) :
    attach op l r = .binary l.pos op l r := by
  cases r with
  | binary p op' a b =>
    have hne : op' ≠ op := fun heq => h (congrArg some heq)
    rw [attach, if_neg hne]
  | _ => rfl

end Expr

/-! ## What a slot changes -/

/-- The expression goes on with the chain of operators that it stands in. -/
def Slot.continues : Slot → Expr → Bool
  | .link op _, .binary _ op' _ _ => op' == op
  | _, _ => false

namespace Style

variable {style : Style} {word : BinaryOp → Token} {slot : Slot} {doubled : Bool} {e : Expr}

theorem linkWraps_eq {p : Pos} {op : BinaryOp} {l r : Expr}
    (h : slot.continues (.binary p op l r) = false) :
    style.linkWraps slot op (.binary p op l r) =
      style.linkWraps .whole op (.binary p op l r) := by
  cases slot with
  | link outer w =>
    have hne : outer ≠ op := fun heq => by simp [Slot.continues, heq] at h
    simp only [linkWraps, if_neg hne]
  | _ => rfl

/-- Operands are never put into brackets. -/
theorem wraps_operand (h : e.isOperand = true) : style.wraps slot e = false := by
  have hrelational : e.isRelational = false := by cases e <;> first | rfl | cases h
  have hassign : e.isAssign = false := by cases e <;> first | rfl | cases h
  have hbinary : e.isBinary = false := by cases e <;> first | rfl | cases h
  have hunary : e.isUnary = false := by cases e <;> first | rfl | cases h
  have hupdate : e.isUpdate = false := by cases e <;> first | rfl | cases h
  have houter : e.outerOp? = none := by cases e <;> first | rfl | cases h
  have hchain : ∀ op, e.isLooserChain op = false := by
    intro op
    cases e <;> first | rfl | cases h
  cases slot <;>
    simp [wraps, wrapsOperand, hrelational, hassign, hbinary, hunary, hupdate, houter, hchain]

/-- Unless an expression goes on with a chain, its slot decides about nothing but the
brackets round it. -/
theorem spell_eq (he : e.Readable doubled) (h : slot.continues e = false) :
    style.spell word slot e = style.placeTokens slot e (style.spell word .whole e) := by
  have hoperand : e.isOperand = true →
      style.placeTokens slot e (style.spell word .whole e) = style.spell word .whole e := by
    intro hoperand
    unfold placeTokens
    rw [wraps_operand hoperand, if_neg Bool.false_ne_true]
  cases e with
  | binary p op l r =>
    unfold spell
    rw [linkWraps_eq h]
    split <;> rfl
  | unary p op operand => rfl
  | update | assign => exact he.elim
  | _ => exact (hoperand rfl).symm

/-- In its own chain an expression is written operand by operand. -/
theorem spell_link {op : BinaryOp} (hop : op.isLogical = true) (w : Bool) (p : Pos) (l r : Expr) :
    style.spell word (.link op w) (.binary p op l r) =
      style.spell word (.link op w) l ++ word op :: style.spell word (.link op w) r := by
  have hwraps : style.wraps (.link op w) (.binary p op l r) = false := by
    have hrelational : op.isRelational = false := by cases op <;> first | rfl | cases hop
    simp [wraps, Expr.isRelational, Expr.isAssign, Expr.isLooserChain, hrelational]
  rw [spell, if_pos hop]
  simp [placeTokens, hwraps, linkWraps]

/-! ## Reading the tokens again -/

open Reading (loosest Spells SpellsLeft SpellsBase SpellsWhole)

/-- What reading the tokens of an expression again gives. -/
abbrev reread (e : Expr) : Expr :=
  unplaced e.regroup

/-- The level of operators that an expression on its own belongs to. -/
def level : Expr → Nat
  | .binary _ op _ _ => loosest - op.precedence + 1
  | _ => 0

/-- The tokens of an expression on its own are read as the expression again.  With an
operator between operands more operators of the level may follow; behind an operand,
more calls, fields and subscripts. -/
def SpelledAlone (style : Style) (e : Expr) : Prop :=
  match e with
  | .binary _ op _ _ =>
    SpellsLeft (loosest - op.precedence) (style.spell BinaryOp.token .whole e) (reread e)
  | .literal .. | .unary .. => Spells 0 (style.spell BinaryOp.token .whole e) (reread e)
  | _ => SpellsBase e.isIndex (style.spell BinaryOp.token .whole e) (reread e)

namespace SpelledAlone

theorem spells (h : SpelledAlone style e) :
    Spells (level e) (style.spell BinaryOp.token .whole e) (reread e) := by
  cases e with
  | binary p op l r => exact SpellsLeft.spells h
  | literal | unary => exact h
  | _ => exact SpellsBase.spells h

theorem whole (h : SpelledAlone style e) (he : e.Readable doubled) :
    SpellsWhole (style.spell BinaryOp.token .whole e) (reread e) := by
  refine h.spells.whole ?_
  cases e with
  | binary p op l r =>
    have hpositive : ∀ op ∈ BinaryOp.all, loosest - op.precedence + 1 ≤ loosest := by decide
    exact hpositive op he.1
  | _ => exact Nat.zero_le _

/-- In its slot an expression can be read by any level that its brackets or its own level
allow. -/
theorem placed {n : Nat} (h : SpelledAlone style e) (he : e.Readable doubled)
    (hcontinues : slot.continues e = false) (hn : style.wraps slot e = false → level e ≤ n) :
    Spells n (style.spell BinaryOp.token slot e) (reread e) := by
  rw [spell_eq he hcontinues]
  unfold placeTokens
  cases hwraps : style.wraps slot e with
  | true => exact (SpellsBase.paren (h.whole he)).spells.mono (Nat.zero_le n)
  | false => exact h.spells.mono (hn hwraps)

/-- Before a call, a field or a subscript. -/
theorem receiver (h : SpelledAlone style e) (he : e.Readable doubled)
    (hliteral : e.isLiteral = false) :
    SpellsBase e.isIndex (style.spell BinaryOp.token .receiver e) (reread e) := by
  rw [spell_eq he rfl]
  cases e with
  | binary | unary => exact SpellsBase.paren (h.whole he)
  | literal => cases hliteral
  | update | assign => exact he.elim
  | _ =>
    unfold placeTokens
    rw [wraps_operand rfl, if_neg Bool.false_ne_true]
    exact h

/-- An operand without brackets binds at least as tightly as the operator, and more
tightly on the right. -/
theorem precedence_le {op op' : BinaryOp} {onLeft : Bool} {p : Pos} {l r : Expr}
    (h : style.wrapsOperand op onLeft (.binary p op' l r) = false) :
    op.precedence ≤ op'.precedence ∧ (onLeft = false → op.precedence < op'.precedence) := by
  simp only [wrapsOperand, Expr.outerOp?, Bool.or_eq_false_iff, Bool.and_eq_false_iff,
    decide_eq_false_iff_not, beq_eq_false_iff_ne, Bool.not_eq_false'] at h
  obtain ⟨-, ⟨-, hlt⟩, heq⟩ := h
  refine ⟨Nat.le_of_not_lt hlt, ?_⟩
  intro hright
  rcases heq with hne | hleft
  · omega
  · simp [hright] at hleft

theorem level_le {op op' : BinaryOp} (hop' : op' ∈ BinaryOp.all)
    (h : op.precedence < op'.precedence) :
    loosest - op'.precedence + 1 ≤ loosest - op.precedence := by
  have hbound : ∀ op ∈ BinaryOp.all, op.precedence ≤ loosest := by decide
  have hle := hbound op' hop'
  omega

/-- On the left of an operator. -/
theorem left {op : BinaryOp} (h : SpelledAlone style e) (he : e.Readable doubled) :
    SpellsLeft (loosest - op.precedence) (style.spell BinaryOp.token (.left op) e) (reread e) := by
  by_cases hequal : style.wraps (.left op) e = false ∧
      e.outerOp?.map (·.precedence) = some op.precedence
  · -- the operand joins the operators of the level that it stands in
    obtain ⟨hwraps, hequal⟩ := hequal
    rw [spell_eq he rfl]
    unfold placeTokens
    rw [hwraps, if_neg Bool.false_ne_true]
    cases e with
    | binary p op' l r =>
      have heq : op'.precedence = op.precedence := Option.some.inj hequal
      rw [← heq]
      exact h
    | update => exact he.elim
    | _ => cases hequal
  · refine (h.placed he rfl ?_).left
    intro hwraps
    cases e with
    | binary p op' l r =>
      have hne : op'.precedence ≠ op.precedence := fun heq => hequal ⟨hwraps, congrArg some heq⟩
      exact level_le he.1 (Nat.lt_of_le_of_ne (precedence_le hwraps).1 hne.symm)
    | _ => exact Nat.zero_le _

/-- On the right of an operator. -/
theorem right {op : BinaryOp} (h : SpelledAlone style e) (he : e.Readable doubled) :
    Spells (loosest - op.precedence) (style.spell BinaryOp.token (.right op) e) (reread e) := by
  refine h.placed he rfl ?_
  intro hwraps
  cases e with
  | binary p op' l r => exact level_le he.1 ((precedence_le hwraps).2 rfl)
  | _ => exact Nat.zero_le _

end SpelledAlone

theorem precedence_eq : ∀ op ∈ BinaryOp.all,
    op.precedence = loosest - (loosest - op.precedence) := by
  decide

/-- In a chain of `op` the tokens of an expression are read as the expression, and behind
the operands before it as the next ones of the chain. -/
structure SpelledInChain (style : Style) (op : BinaryOp) (w : Bool) (e : Expr) : Prop where
  first :
    SpellsLeft (loosest - op.precedence) (style.spell BinaryOp.token (.link op w) e) (reread e)
  next : ∀ ts l, SpellsLeft (loosest - op.precedence) ts l →
    SpellsLeft (loosest - op.precedence)
      (ts ++ op.token :: style.spell BinaryOp.token (.link op w) e) (Expr.attach op l (reread e))

/-- An operand of a chain that is no chain of the same operator. -/
theorem SpelledAlone.inChain {op : BinaryOp} {w : Bool} (h : SpelledAlone style e)
    (he : e.Readable doubled) (hop : op.isLogical = true) (hne : e.outerOp? ≠ some op) :
    SpelledInChain style op w e := by
  have hmem : op ∈ BinaryOp.all := by cases op <;> first | decide | cases hop
  have hcontinues : (Slot.link op w).continues e = false := by
    cases e with
    | binary p op' l r =>
      have hne : op' ≠ op := fun heq => hne (congrArg some heq)
      simpa [Slot.continues] using hne
    | _ => rfl
  have hspells : Spells (loosest - op.precedence)
      (style.spell BinaryOp.token (.link op w) e) (reread e) := by
    refine h.placed he hcontinues ?_
    intro hwraps
    cases e with
    | binary p op' l r =>
      have hlogical : ∀ op ∈ BinaryOp.all, op.isLogical = true → ∀ op' ∈ BinaryOp.all,
          op' ≠ op → (op'.isLogical && op'.precedence < op.precedence) = false →
          op.precedence < op'.precedence := by
        decide
      have hlooser : (op'.isLogical && op'.precedence < op.precedence) = false :=
        (Bool.or_eq_false_iff.mp hwraps).2
      exact SpelledAlone.level_le he.1
        (hlogical op hmem hop op' he.1 (fun heq => hne (congrArg some heq)) hlooser)
    | _ => exact Nat.zero_le _
  constructor
  · exact hspells.left
  · intro ts l hl
    rw [Expr.attach_of_ne]
    · exact SpellsLeft.binary hmem (precedence_eq op hmem) hl hspells
    · rw [Expr.outerOp?_move, Expr.outerOp?_regroup]
      exact hne

theorem SpelledInChain.binary {op : BinaryOp} {w : Bool} {p : Pos} {l r : Expr}
    (hop : op.isLogical = true) (hl : SpelledInChain style op w l)
    (hr : SpelledInChain style op w r) : SpelledInChain style op w (.binary p op l r) := by
  have hreread : reread (.binary p op l r) = Expr.attach op (reread l) (reread r) := by
    rw [reread, Expr.regroup, if_pos hop]
    exact Expr.move_attach _ op _ _
  constructor
  · rw [spell_link hop, hreread]
    exact hr.next _ _ hl.first
  · intro ts l₀ hl₀
    rw [spell_link hop, hreread, Expr.attach_attach]
    have hnext := hr.next _ _ (hl.next ts l₀ hl₀)
    rwa [List.append_assoc] at hnext

/-! ## One lemma for each kind of expression -/

theorem spelledAlone_literal {p : Pos} {raw : String} (h : Vocabulary.lexical.IsLiteral raw) :
    SpelledAlone style (.literal p raw) := by
  obtain ⟨kind, hraw, -, hkind⟩ := Token.literal_eq h
  show Spells 0 [Token.literal raw] (.literal .start raw)
  rw [hraw]
  exact Spells.literal hkind

theorem spelledAlone_index {p : Pos} {base : Expr} {indices : List Expr}
    (he : (Expr.index p base indices).Readable doubled) (hbase : SpelledAlone style base)
    (hindices : ∀ i ∈ indices, SpelledAlone style i) :
    SpelledAlone style (.index p base indices) := by
  obtain ⟨hread, hliteral, hindex, hne, hreads⟩ := he
  have hreads := Expr.allReadable_iff.mp hreads
  have hreceiver := hbase.receiver hread hliteral
  rw [hindex] at hreceiver
  have hspells := hreceiver.index hne fun i hi => (hindices i hi).whole (hreads i hi)
  show SpellsBase true _ _
  rw [spell_index]
  simpa [reread, Expr.regroup, Expr.regroupAll_eq] using hspells

theorem spelledAlone_call {p : Pos} {n : String} {args : List Expr}
    (he : (Expr.call p n args).Readable doubled) (hargs : ∀ a ∈ args, SpelledAlone style a) :
    SpelledAlone style (.call p n args) := by
  have hreads := Expr.allReadable_iff.mp he.2
  have hspells := SpellsBase.call n fun a ha => (hargs a ha).whole (hreads a ha)
  show SpellsBase false _ _
  rw [spell_call]
  simpa [reread, Expr.regroup, Expr.regroupAll_eq] using hspells

theorem spelledAlone_methodCall {p : Pos} {receiver : Expr} {n : String} {args : List Expr}
    (he : (Expr.methodCall p receiver n args).Readable doubled)
    (hreceiver : SpelledAlone style receiver) (hargs : ∀ a ∈ args, SpelledAlone style a) :
    SpelledAlone style (.methodCall p receiver n args) := by
  obtain ⟨hread, hliteral, -, hreads⟩ := he
  have hreads := Expr.allReadable_iff.mp hreads
  have hspells := (hreceiver.receiver hread hliteral).methodCall n
    fun a ha => (hargs a ha).whole (hreads a ha)
  show SpellsBase false _ _
  rw [spell_methodCall]
  simpa [reread, Expr.regroup, Expr.regroupAll_eq] using hspells

theorem spelledAlone_property {p : Pos} {receiver : Expr} {n : String}
    (he : (Expr.property p receiver n).Readable doubled) (hreceiver : SpelledAlone style receiver) :
    SpelledAlone style (.property p receiver n) := by
  obtain ⟨hread, hliteral, -, hn⟩ := he
  have hspells := (hreceiver.receiver hread hliteral).property hn
  show SpellsBase false _ _
  simpa [reread, Expr.regroup, spell] using hspells

theorem spelledAlone_unary {p : Pos} {op : UnaryOp} {operand : Expr}
    (he : (Expr.unary p op operand).Readable doubled) (hoperand : SpelledAlone style operand) :
    SpelledAlone style (.unary p op operand) := by
  obtain ⟨hop, hread, -⟩ := he
  have hspells : Spells 0 (style.spell BinaryOp.token .prefixed operand) (reread operand) := by
    refine hoperand.placed hread rfl ?_
    intro hwraps
    cases operand with
    | binary => cases hwraps
    | _ => exact Nat.le_refl 0
  exact Spells.unary hop hspells

/-- Operands of an operator that is no `&&` and no `||` have a side each. -/
theorem spelledAlone_binary {p : Pos} {op : BinaryOp} {l r : Expr} (hop : op ∈ BinaryOp.all)
    (hlogical : op.isLogical = false) (hreadl : l.Readable doubled) (hreadr : r.Readable doubled)
    (hl : SpelledAlone style l) (hr : SpelledAlone style r) :
    SpelledAlone style (.binary p op l r) := by
  have hspells := SpellsLeft.binary hop (precedence_eq op hop) (hl.left hreadl) (hr.right hreadr)
  have hlogical : ¬ op.isLogical = true := by simp [hlogical]
  show SpellsLeft _ _ _
  rw [spell, if_neg hlogical, reread, Expr.regroup, if_neg hlogical]
  rw [Expr.pos_move] at hspells
  exact hspells

/-- Operands of `&&` and of `||` stand in a chain. -/
theorem spelledAlone_chain {p : Pos} {op : BinaryOp} {l r : Expr} (hop : op.isLogical = true)
    (hl : ∀ w, SpelledInChain style op w l) (hr : ∀ w, SpelledInChain style op w r) :
    SpelledAlone style (.binary p op l r) := by
  show SpellsLeft _ _ _
  rw [spell, if_pos hop]
  let w := style.linkWraps .whole op (.binary p op l r)
  have hchain := (SpelledInChain.binary (p := p) hop (hl w) (hr w)).first
  rw [spell_link hop] at hchain
  exact hchain

/-- What is no operator between operands is an operand of every chain. -/
theorem SpelledAlone.everywhere (h : SpelledAlone style e) (he : e.Readable doubled)
    (houter : e.outerOp? = none) :
    SpelledAlone style e ∧ ∀ op w, op.isLogical = true → SpelledInChain style op w e :=
  ⟨h, fun _ _ hop => h.inChain he hop (by simp [houter])⟩

/-- The tokens of every expression are read as the expression again, on its own and in a
chain of conditions. -/
theorem spelledAlone_and_inChain (style : Style) (e : Expr) (he : e.Readable doubled) :
    SpelledAlone style e ∧ ∀ op w, op.isLogical = true → SpelledInChain style op w e := by
  induction e with
  | name p n => exact SpelledAlone.everywhere (SpellsBase.name n) he rfl
  | literal p raw => exact (spelledAlone_literal he).everywhere he rfl
  | index p base indices ihbase ihindices =>
    have hreads := Expr.allReadable_iff.mp he.2.2.2.2
    exact (spelledAlone_index he (ihbase he.1).1
      fun i hi => (ihindices i hi (hreads i hi)).1).everywhere he rfl
  | call p n args ih =>
    have hreads := Expr.allReadable_iff.mp he.2
    exact (spelledAlone_call he fun a ha => (ih a ha (hreads a ha)).1).everywhere he rfl
  | methodCall p receiver n args ihreceiver ihargs =>
    have hreads := Expr.allReadable_iff.mp he.2.2.2
    exact (spelledAlone_methodCall he (ihreceiver he.1).1
      fun a ha => (ihargs a ha (hreads a ha)).1).everywhere he rfl
  | property p receiver n ih => exact (spelledAlone_property he (ih he.1).1).everywhere he rfl
  | unary p op operand ih => exact (spelledAlone_unary he (ih he.2.1).1).everywhere he rfl
  | binary p op l r ihl ihr =>
    obtain ⟨hop, hreadl, hreadr⟩ := he
    obtain ⟨hl, hchainl⟩ := ihl hreadl
    obtain ⟨hr, hchainr⟩ := ihr hreadr
    have halone : SpelledAlone style (.binary p op l r) := by
      cases hlogical : op.isLogical with
      | false => exact spelledAlone_binary hop hlogical hreadl hreadr hl hr
      | true =>
        exact spelledAlone_chain hlogical (fun w => hchainl op w hlogical)
          (fun w => hchainr op w hlogical)
    refine ⟨halone, ?_⟩
    intro outer w houter
    by_cases heq : op = outer
    · subst heq
      exact SpelledInChain.binary houter (hchainl op w houter) (hchainr op w houter)
    · have hne : (Expr.binary p op l r).outerOp? ≠ some outer := fun h => heq (Option.some.inj h)
      exact halone.inChain ⟨hop, hreadl, hreadr⟩ houter hne
  | _ => exact he.elim

/-- The tokens of an expression on its own, read where any expression may stand. -/
theorem spellsWhole_spell (style : Style) (he : e.Readable doubled) :
    SpellsWhole (style.spell BinaryOp.token .whole e) (reread e) :=
  (spelledAlone_and_inChain style e he).1.whole he

end Style

end Pseudocode
