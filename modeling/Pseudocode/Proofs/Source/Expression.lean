import Pseudocode.Proofs.Source.Writing
set_option autoImplicit false

/-!
# Expressions of a source

The tokens that are written for an expression obey the rules of the grammar, one rule for
each kind of node, so that they are read as the expression.  They are lexemes, and their
square brackets stand in pairs: what looks ahead over subscripts finds their end.
-/

namespace Pseudocode

open Reading

/-! ## The tokens of a source -/

namespace Token

/-- A lexeme that is no modifier, at no place in particular. -/
def inSource (t : Token) : Bool :=
  t.pos == .start && isLexeme t.kind t.text && !t.isModifier

theorem inSource_iff {t : Token} :
    t.inSource = true ↔ t.pos = .start ∧ isLexeme t.kind t.text = true ∧ t.isModifier = false := by
  simp [inSource, and_assoc]

/-- Only a square bracket is written as one. -/
theorem text_of_inSource {t : Token} (h : t.inSource = true) (hkind : t.kind ≠ .bracket) :
    t.text ≠ "]" := by
  intro htext
  obtain ⟨-, hlexeme, -⟩ := inSource_iff.mp h
  rw [htext] at hlexeme
  have hbracket : ∀ kind, isLexeme kind "]" = true → kind = .bracket := by
    intro kind
    cases kind <;> decide
  exact hkind (hbracket t.kind hlexeme)

/-- Tokens of a source, with square brackets in pairs. -/
structure Tidy (ts : List Token) : Prop where
  inSource : ∀ t ∈ ts, t.inSource = true
  balanced : Balanced ts

namespace Tidy

variable {α : Type} {f : α → List Token} {as : List α} {t : Token} {ts us : List Token}

theorem nil : Tidy [] :=
  ⟨by simp, .nil⟩

theorem append (h : Tidy ts) (h' : Tidy us) : Tidy (ts ++ us) := by
  refine ⟨?_, h.balanced.append h'.balanced⟩
  intro t ht
  exact (List.mem_append.mp ht).elim (h.inSource t) (h'.inSource t)

theorem cons (ht : t.inSource = true) (hkind : t.kind ≠ .bracket) (h : Tidy ts) :
    Tidy (t :: ts) := by
  refine ⟨?_, h.balanced.cons ⟨?_, hkind⟩⟩
  · intro u hu
    rcases List.mem_cons.mp hu with rfl | hu
    · exact ht
    · exact h.inSource u hu
  · intro heof
    obtain ⟨-, hlexeme, -⟩ := inSource_iff.mp ht
    obtain ⟨c, -, hstart⟩ := isLexeme_head hlexeme
    rw [heof] at hstart
    cases hstart

theorem flatMap (h : ∀ a ∈ as, Tidy (f a)) : Tidy (as.flatMap f) := by
  refine ⟨?_, .flatMap fun a ha => (h a ha).balanced⟩
  intro t ht
  obtain ⟨a, ha, ht⟩ := List.mem_flatMap.mp ht
  exact (h a ha).inSource t ht

theorem bracket (h : Tidy ts) :
    Tidy (Pattern.openBracket.token :: ts ++ [Pattern.closeBracket.token]) := by
  refine ⟨?_, h.balanced.bracket⟩
  intro t ht
  simp only [List.cons_append, List.mem_cons, List.mem_append, List.not_mem_nil, or_false] at ht
  rcases ht with rfl | ht | rfl
  · decide
  · exact h.inSource t ht
  · decide

theorem bracketed (h : ∀ a ∈ as, Tidy (f a)) : Tidy (bracketed f as) :=
  flatMap fun a ha => (h a ha).bracket

theorem separated (h : ∀ a ∈ as, Tidy (f a)) : Tidy (separated f as) := by
  cases as with
  | nil => exact nil
  | cons a as =>
    refine (h a List.mem_cons_self).append (flatMap ?_)
    intro b hb
    exact (h b (List.mem_cons_of_mem a hb)).cons (by decide) (by decide)

/-- Behind tidy tokens there may be one more. -/
theorem concat (h : Tidy ts) (ht : t.inSource = true) (hkind : t.kind ≠ .bracket) :
    Tidy (ts ++ [t]) :=
  h.append (nil.cons ht hkind)

theorem enclosed (bare : Bool) (h : Tidy ts) : Tidy (enclosed bare ts) := by
  cases bare with
  | true => exact h
  | false => exact (h.concat (by decide) (by decide)).cons (by decide) (by decide)

end Tidy

end Token

/-! ### Names, types and operators -/

theorem inSource_word {n : String} (h : Vocabulary.source .identifier n) :
    (Token.word n).inSource = true := by
  refine Token.inSource_iff.mpr ⟨rfl, h.1, ?_⟩
  have hnot : modifiers.contains n = false := by simpa using h.2
  simp only [Token.isModifier, Token.word, Token.bare, hnot, Bool.and_false]

theorem name_ne_final {n : String} (h : Vocabulary.source .identifier n) : n ≠ "final" := by
  rintro rfl
  exact h.2 (by decide)

/-- The token of a type that is a name is that of the name. -/
theorem type_eq_word {n : String} (h : Vocabulary.source .identifier n) :
    Token.type n = .word n := by
  have hnot : n ∉ typeKeywords := by
    have hlexeme : ∀ word ∈ typeKeywords, Token.isLexeme .identifier word = false := by decide
    intro hmem
    have htrue := h.1
    rw [hlexeme n hmem] at htrue
    cases htrue
  rw [Token.type, if_neg hnot]
  rfl

theorem inSource_type {n : String} (h : n ∈ typeKeywords ∨ Vocabulary.source .identifier n) :
    (Token.type n).inSource = true := by
  rcases h with h | h
  · have hall : ∀ word ∈ typeKeywords, (Token.type word).inSource = true := by decide
    exact hall n h
  · rw [type_eq_word h]
    exact inSource_word h

theorem kind_type (n : String) :
    (Token.type n).kind = .keyword ∨ (Token.type n).kind = .identifier := by
  by_cases h : n ∈ typeKeywords
  · exact .inl (if_pos h)
  · exact .inr (if_neg h)

theorem inSource_binary : ∀ op ∈ BinaryOp.all, (Token.symbol op.symbol).inSource = true := by
  decide

theorem inSource_assign : ∀ op ∈ AssignOp.all, (Token.symbol op.symbol).inSource = true := by
  decide

theorem inSource_update {op : UpdateOp} (h : op = .increment ∨ op = .decrement) :
    (Token.symbol op.symbol).inSource = true := by
  rcases h with rfl | rfl <;> decide

theorem kind_symbol (text : String) : (Token.symbol text).kind ≠ .bracket := by
  simp [Token.symbol, Token.bare]

theorem kind_word (n : String) : (Token.word n).kind ≠ .bracket := by
  simp [Token.word, Token.bare]

theorem pos_unplaced (e : Expr) : (unplaced e).pos = .start :=
  Expr.pos_move _ e

/-! ## Expressions -/

namespace Expr

/-- What is written for an expression is read as the expression: where anything may stand,
between operators unless it assigns, and next to any operator if it stands there bare. -/
structure IsSpelled (e : Expr) : Prop where
  tidy : Token.Tidy (e.written false)
  whole : SpellsWhole (e.written false) (unplaced e)
  level : e.isAssign = false → Spells loosest (e.written false) (unplaced e)
  atom : e.standsBare true = true → Spells 0 (e.written false) (unplaced e)

namespace IsSpelled

variable {e l r target value : Expr} {es : List Expr} (p : Pos)

theorem of_spells (htidy : Token.Tidy (e.written false))
    (h : Spells 0 (e.written false) (unplaced e)) : e.IsSpelled :=
  ⟨htidy, h.whole (by decide), fun _ => h.mono (by decide), fun _ => h⟩

theorem name {n : String} (h : Vocabulary.source .identifier n) : (Expr.name p n).IsSpelled :=
  of_spells (Token.Tidy.nil.cons (inSource_word h) (kind_word n)) (SpellsBase.name n).spells

theorem literal {raw : String} (h : Vocabulary.source.IsLiteral raw) :
    (Expr.literal p raw).IsSpelled := by
  have hlexical : Vocabulary.lexical.IsLiteral raw := h.imp .inr (Or.imp_left .inr)
  obtain ⟨kind, htoken, hlexeme, hkind⟩ := Token.literal_eq hlexical
  have hwritten : (Expr.literal p raw).written false = [.bare kind raw] := by
    rw [← htoken]
    rfl
  have hsource : (Token.bare kind raw).inSource = true := by
    refine Token.inSource_iff.mpr ⟨rfl, hlexeme, ?_⟩
    rcases hkind with rfl | rfl | ⟨rfl, rfl | rfl⟩ <;> rfl
  have hbracket : (Token.bare kind raw).kind ≠ .bracket := by
    rcases hkind with rfl | rfl | ⟨rfl, -⟩ <;> exact Kind.noConfusion
  refine of_spells ?_ ?_
  · rw [hwritten]
    exact Token.Tidy.nil.cons hsource hbracket
  · rw [hwritten]
    exact Spells.literal hkind

/-! ### In their places -/

theorem tidy_operand (h : e.IsSpelled) : Token.Tidy (e.operand false) :=
  h.tidy.enclosed _

theorem tidy_base (h : e.IsSpelled) : Token.Tidy (e.base false) :=
  h.tidy.enclosed _

/-- An operand is read next to any operator. -/
theorem operand (h : e.IsSpelled) : Spells 0 (e.operand false) (unplaced e) := by
  unfold Expr.operand Token.enclosed
  split
  · exact h.atom ‹_›
  · exact (SpellsBase.paren h.whole).spells

theorem argument (h : e.IsSpelled) : SpellsWhole (e.operand false) (unplaced e) :=
  h.operand.whole (by decide)

/-- A base is read in front of anything. -/
theorem base (h : e.IsSpelled) : SpellsBase false (e.base false) (unplaced e) := by
  cases e with
  | name p n => exact SpellsBase.name n
  | _ => exact SpellsBase.paren h.whole

/-! ### One rule for each kind of node -/

theorem index (hbase : e.IsSpelled) (hne : es ≠ []) (hes : ∀ i ∈ es, i.IsSpelled) :
    (Expr.index p e es).IsSpelled := by
  have hread := hbase.base.index hne fun i hi => (hes i hi).whole
  rw [pos_unplaced] at hread
  refine of_spells ?_ ?_
  · rw [written_index]
    exact hbase.tidy_base.append (.bracketed fun i hi => (hes i hi).tidy)
  · rw [written_index, unplaced, move_index]
    exact hread.spells

/-- A name with arguments. -/
theorem tidy_call {n : String} (hn : Vocabulary.source .identifier n)
    (hes : ∀ a ∈ es, a.IsSpelled) :
    Token.Tidy (.word n :: Pattern.openParen.token :: separated (Expr.operand false) es ++
      [Pattern.closeParen.token]) := by
  have htidy : Token.Tidy (separated (Expr.operand false) es) :=
    .separated fun a ha => (hes a ha).tidy_operand
  exact ((htidy.concat (by decide) (by decide)).cons (by decide) (by decide)).cons
    (inSource_word hn) (kind_word n)

theorem call {n : String} (hn : Vocabulary.source .identifier n) (hes : ∀ a ∈ es, a.IsSpelled) :
    (Expr.call p n es).IsSpelled := by
  refine of_spells ?_ ?_
  · rw [written_call]
    exact tidy_call hn hes
  · rw [written_call, unplaced, move_call]
    exact (SpellsBase.call n fun a ha => (hes a ha).argument).spells

theorem methodCall {n : String} (he : e.IsSpelled) (hn : Vocabulary.source .identifier n)
    (hes : ∀ a ∈ es, a.IsSpelled) : (Expr.methodCall p e n es).IsSpelled := by
  have hread := he.base.methodCall n fun a ha => (hes a ha).argument
  rw [pos_unplaced] at hread
  refine of_spells ?_ ?_
  · rw [written_methodCall, List.append_assoc]
    exact he.tidy_base.append ((tidy_call hn hes).cons (by decide) (by decide))
  · rw [written_methodCall, unplaced, move_methodCall]
    exact hread.spells

theorem property {n : String} (he : e.IsSpelled) (hn : Vocabulary.source .identifier n)
    (hlength : n ≠ "length") : (Expr.property p e n).IsSpelled := by
  have hread := he.base.property hlength
  rw [pos_unplaced] at hread
  have htidy := he.tidy_base.append ((Token.Tidy.nil.cons (inSource_word hn) (kind_word n)).cons
    (t := Pattern.dot.token) (by decide) (by decide))
  exact of_spells htidy hread.spells

theorem length (he : e.IsSpelled) : (Expr.length p e).IsSpelled := by
  have hread := he.base.length
  rw [pos_unplaced] at hread
  have htidy := he.tidy_base.append ((Token.Tidy.nil.cons (t := .word "length") (by decide)
    (by decide)).cons (t := Pattern.dot.token) (by decide) (by decide))
  exact of_spells htidy hread.spells

theorem newArray {n : String} (hn : n ∈ typeKeywords ∨ Vocabulary.source .identifier n)
    (hne : es ≠ []) (hes : ∀ d ∈ es, d.IsSpelled) : (Expr.newArray p n es).IsSpelled := by
  have hkind : (Token.type n).kind ≠ .bracket := by
    rcases kind_type n with h | h <;> simp [h]
  have htidy : Token.Tidy (bracketed (written false) es) :=
    .bracketed fun d hd => (hes d hd).tidy
  refine of_spells ?_ ?_
  · rw [written_newArray]
    exact (htidy.cons (inSource_type hn) hkind).cons (by decide) (by decide)
  · rw [written_newArray, unplaced, move_newArray]
    exact Spells.newArray (kind_type n) hne fun d hd => (hes d hd).whole

theorem arrayLiteral (hes : ∀ a ∈ es, a.IsSpelled) : (Expr.arrayLiteral p es).IsSpelled := by
  have htidy : Token.Tidy (separated (written false) es) :=
    .separated fun a ha => (hes a ha).tidy
  have hpair : Token.Tidy [Pattern.openBracket.token, Pattern.closeBracket.token] :=
    Token.Tidy.nil.bracket
  refine of_spells ?_ ?_
  · rw [written_arrayLiteral]
    exact ((hpair.append ((htidy.concat (by decide) (by decide)).cons
      (t := Pattern.openBrace.token) (by decide) (by decide))).cons (by decide) (by decide)).cons
      (by decide) (by decide)
  · rw [written_arrayLiteral, unplaced, move_arrayLiteral]
    exact Spells.arrayLiteral (kind_type "int") fun a ha => (hes a ha).whole

theorem newObject {n : String} (hn : Vocabulary.source .identifier n)
    (hes : ∀ a ∈ es, a.IsSpelled) : (Expr.newObject p n es).IsSpelled := by
  refine of_spells ?_ ?_
  · rw [written_newObject]
    exact (tidy_call hn hes).cons (by decide) (by decide)
  · rw [written_newObject, unplaced, move_newObject]
    exact Spells.newObject n fun a ha => (hes a ha).argument

theorem unary {op : UnaryOp} (hop : op = .not ∨ op = .neg) (he : e.IsSpelled) :
    (Expr.unary p op e).IsSpelled := by
  have hsource : (Token.symbol op.symbol).inSource = true := by
    rcases hop with rfl | rfl <;> decide
  exact of_spells (he.tidy_operand.cons hsource (kind_symbol _)) (he.operand.unary hop)

theorem update {op : UpdateOp} (hop : op = .increment ∨ op = .decrement) (he : e.IsSpelled) :
    (Expr.update p op e).IsSpelled := by
  have hread := he.base.update hop
  rw [pos_unplaced] at hread
  exact of_spells (he.tidy_base.concat (inSource_update hop) (kind_symbol _)) hread

theorem binary {op : BinaryOp} (hop : op ∈ BinaryOp.all) (hl : l.IsSpelled) (hr : r.IsSpelled) :
    (Expr.binary p op l r).IsSpelled := by
  have hlevel : ∀ op ∈ BinaryOp.all, op.precedence = loosest - (loosest - op.precedence) ∧
      loosest - op.precedence + 1 ≤ loosest := by decide
  obtain ⟨hprecedence, hle⟩ := hlevel op hop
  have hleft := (hl.operand.mono (Nat.zero_le (loosest - op.precedence))).left
  have hright := hr.operand.mono (Nat.zero_le (loosest - op.precedence))
  have hread := (SpellsLeft.binary hop hprecedence hleft hright).spells
  rw [pos_unplaced] at hread
  have htidy := hl.tidy_operand.append
    (hr.tidy_operand.cons (inSource_binary op hop) (kind_symbol op.symbol))
  exact ⟨htidy, hread.whole hle, fun _ => hread.mono hle, nofun⟩

theorem assign {op : AssignOp} (hop : op ∈ AssignOp.all) (htarget : target.isTarget = true)
    (ht : target.IsSpelled) (hv : value.IsSpelled) : (Expr.assign p target op value).IsSpelled := by
  have hassign : target.isAssign = false := by
    cases target <;> first | rfl | cases htarget
  have hread := SpellsWhole.assign hop ((isTarget_move _ target).trans htarget)
    (ht.level hassign) hv.whole
  rw [pos_unplaced] at hread
  have htidy := ht.tidy.append (hv.tidy.cons (inSource_assign op hop) (kind_symbol op.symbol))
  exact ⟨htidy, hread, nofun, nofun⟩

end IsSpelled

/-- What is written for a well-formed expression is read as the expression. -/
theorem isSpelled {e : Expr} (h : e.WellFormed .source) : e.IsSpelled := by
  induction e with
  | name p n => exact .name p h
  | literal p raw => exact .literal p h
  | index p base indices hbase hindices =>
    obtain ⟨hb, hne, hall⟩ := h
    exact .index p (hbase hb) hne fun i hi => hindices i hi (allWellFormed_iff.mp hall i hi)
  | call p n args hargs =>
    obtain ⟨hn, hall⟩ := h
    exact .call p hn fun a ha => hargs a ha (allWellFormed_iff.mp hall a ha)
  | methodCall p receiver n args hreceiver hargs =>
    obtain ⟨hr, hn, hall⟩ := h
    exact .methodCall p (hreceiver hr) hn fun a ha => hargs a ha (allWellFormed_iff.mp hall a ha)
  | property p receiver n hreceiver =>
    obtain ⟨hr, hn, hlength⟩ := h
    exact .property p (hreceiver hr) hn hlength
  | length p operand hoperand => exact .length p (hoperand h)
  | newArray p elementType dims hdims =>
    obtain ⟨htype, hne, hall⟩ := h
    exact .newArray p htype hne fun d hd => hdims d hd (allWellFormed_iff.mp hall d hd)
  | arrayLiteral p elements helements =>
    exact .arrayLiteral p fun a ha => helements a ha (allWellFormed_iff.mp h a ha)
  | newObject p typeName args hargs =>
    obtain ⟨hn, hall⟩ := h
    exact .newObject p hn fun a ha => hargs a ha (allWellFormed_iff.mp hall a ha)
  | unary p op operand hoperand => exact .unary p h.1 (hoperand h.2)
  | update p op operand hoperand => exact .update p h.1 (hoperand h.2)
  | binary p op l r hl hr => exact .binary p h.1 (hl h.2.1) (hr h.2.2)
  | assign p target op value htarget hvalue =>
    obtain ⟨hform, ht, hop, hv⟩ := h
    exact .assign p hop hform (htarget ht) (hvalue hv)
  | unsupported p kind => exact h.elim

/-! ### Chains -/

/-- What is written for a chain is read in front of anything, apart from the subscripts
that would join the last ones. -/
structure IsChain (e : Expr) : Prop where
  tidy : Token.Tidy (e.chain false)
  base : SpellsBase e.isIndex (e.chain false) (unplaced e)

/-- A chain on a name may have any links, but not one list of subscripts behind another. -/
theorem isChain {e : Expr} (hform : (e.isName || e.isDotted) = true) (h : e.WellFormed .source) :
    e.IsChain := by
  induction e with
  | name p n => exact ⟨(IsSpelled.name p h).tidy, SpellsBase.name n⟩
  | index p array indices harray _ =>
    obtain ⟨ha, hne, hall⟩ := h
    have hindices := fun i hi => isSpelled (allWellFormed_iff.mp hall i hi)
    obtain ⟨hdotted, hplain⟩ : array.isDotted = true ∧ array.isIndex = false := by
      simpa [isDotted, isName] using hform
    obtain ⟨htidy, hbase⟩ := harray (by simp [hdotted]) ha
    rw [hplain] at hbase
    have hread := hbase.index hne fun i hi => (hindices i hi).whole
    rw [pos_unplaced] at hread
    refine ⟨htidy.append (.bracketed fun i hi => (hindices i hi).tidy), ?_⟩
    rw [unplaced, move_index]
    exact hread
  | methodCall p receiver n args hreceiver _ =>
    obtain ⟨hr, hn, hall⟩ := h
    have hargs := fun a ha => isSpelled (allWellFormed_iff.mp hall a ha)
    obtain ⟨htidy, hbase⟩ := hreceiver hform hr
    have hread := hbase.methodCall n fun a ha => (hargs a ha).argument
    rw [pos_unplaced] at hread
    refine ⟨?_, ?_⟩
    · rw [chain, List.append_assoc]
      exact htidy.append ((IsSpelled.tidy_call hn hargs).cons (by decide) (by decide))
    · rw [unplaced, move_methodCall]
      exact hread
  | property p receiver n hreceiver =>
    obtain ⟨hr, hn, hlength⟩ := h
    obtain ⟨htidy, hbase⟩ := hreceiver hform hr
    have hread := hbase.property hlength
    rw [pos_unplaced] at hread
    exact ⟨htidy.append ((Token.Tidy.nil.cons (inSource_word hn) (kind_word n)).cons (by decide)
      (by decide)), hread⟩
  | length p receiver hreceiver =>
    obtain ⟨htidy, hbase⟩ := hreceiver hform h
    have hread := hbase.length
    rw [pos_unplaced] at hread
    exact ⟨htidy.append ((Token.Tidy.nil.cons (by decide) (by decide)).cons (by decide)
      (by decide)), hread⟩
  | _ => cases hform

/-- A chain that starts with a field or a method is written so. -/
theorem chain_of_isDotted {e : Expr} (hdotted : e.isDotted = true) (h : e.WellFormed .source) :
    ∃ n us, e.chain false = .word n :: Pattern.dot.token :: us ∧
      Vocabulary.source .identifier n := by
  -- A receiver is the name itself or a longer chain; either way the first link stays in front.
  have hlink : ∀ (receiver : Expr) (us : List Token), receiver.WellFormed .source →
      (receiver.isDotted = true → receiver.WellFormed .source →
        ∃ n us, receiver.chain false = .word n :: Pattern.dot.token :: us ∧
          Vocabulary.source .identifier n) →
      (receiver.isName || receiver.isDotted) = true →
      ∃ n vs, receiver.chain false ++ Pattern.dot.token :: us = .word n :: Pattern.dot.token :: vs ∧
        Vocabulary.source .identifier n := by
    intro receiver us hr ih hform
    rcases Bool.or_eq_true_iff.mp hform with hname | hdotted
    · cases receiver with
      | name p n => exact ⟨n, us, rfl, hr⟩
      | _ => cases hname
    · obtain ⟨n, vs, hchain, hn⟩ := ih hdotted hr
      exact ⟨n, vs ++ Pattern.dot.token :: us, by rw [hchain]; rfl, hn⟩
  induction e with
  | index p array indices harray _ =>
    obtain ⟨hdotted, -⟩ := Bool.and_eq_true_iff.mp hdotted
    obtain ⟨n, us, hchain, hn⟩ := harray hdotted h.1
    exact ⟨n, us ++ bracketed (written false) indices, by rw [chain, hchain]; rfl, hn⟩
  | methodCall p receiver n args hreceiver _ =>
    rw [chain, List.append_assoc]
    exact hlink receiver _ h.1 hreceiver hdotted
  | property p receiver n hreceiver => exact hlink receiver _ h.1 hreceiver hdotted
  | length p receiver hreceiver => exact hlink receiver _ h hreceiver hdotted
  | _ => cases hdotted

end Expr

end Pseudocode
