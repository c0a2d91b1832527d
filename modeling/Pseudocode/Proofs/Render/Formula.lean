import Pseudocode.Proofs.Render.Equals
import Pseudocode.Proofs.Render.Reread
import Pseudocode.Proofs.Token.Literals
set_option autoImplicit false

/-!
# The signs of a formula

A formula is built from names and numbers with operators.  Its text is a row of signs: names,
numbers, operators and brackets.  Blanks and brackets keep the signs apart, so that cutting the
text finds each of them, with one exception: a minus sign stands right before its operand, and
where the operand starts with another one the two are cut as one sign `--`.
-/

namespace Pseudocode

open Token (Scans)

/-- The operator that two minus signs are taken for. -/
def UnaryOp.doubleMinus : UnaryOp :=
  .other "--"

namespace Expr

/-- Expressions of names, numbers and operators. -/
def IsFormula : Expr → Prop
  | .name _ n => Token.isLexeme .identifier n = true
  | .literal _ raw => Token.isLexeme .number raw = true
  | .unary _ op operand => (op = .not ∨ op = .neg) ∧ operand.IsFormula
  | .binary _ op l r => op ∈ BinaryOp.all ∧ l.IsFormula ∧ r.IsFormula
  | _ => False

/-- Somewhere in the formula a minus sign stands directly before another one. -/
def doublesMinus : Expr → Bool
  | .unary _ op operand => (op == .neg && operand.isNegation) || operand.doublesMinus
  | .binary _ _ l r => l.doublesMinus || r.doublesMinus
  | _ => false

/-- The formula with two minus signs, the one directly before the other, as one operator.  Of
more than two, those in front are joined first. -/
def joinMinus : Expr → Expr
  | .unary p .neg (.unary _ .neg operand) => .unary p .doubleMinus operand.joinMinus
  | .unary p op operand => .unary p op operand.joinMinus
  | .binary p op l r => .binary p op l.joinMinus r.joinMinus
  | e => e

/-- How many pairs of minus signs are joined. -/
def minusPairs : Expr → Nat
  | .unary _ .neg (.unary _ .neg operand) => operand.minusPairs + 1
  | .unary _ _ operand => operand.minusPairs
  | .binary _ _ l r => l.minusPairs + r.minusPairs
  | _ => 0

theorem joinMinus_doubled (p q : Pos) (operand : Expr) :
    joinMinus (.unary p .neg (.unary q .neg operand)) =
      .unary p .doubleMinus operand.joinMinus := rfl

section Single

variable {op : UnaryOp} {operand : Expr} (h : op = .neg → operand.isNegation = false) (p : Pos)
include h

theorem joinMinus_unary :
    joinMinus (.unary p op operand) = .unary p op operand.joinMinus := by
  rw [joinMinus]
  rintro q x rfl rfl
  cases h rfl

theorem minusPairs_unary : minusPairs (.unary p op operand) = operand.minusPairs := by
  rw [minusPairs]
  rintro q x rfl rfl
  cases h rfl

theorem doublesMinus_unary : doublesMinus (.unary p op operand) = operand.doublesMinus := by
  rw [doublesMinus]
  cases op <;> simp_all

end Single

/-- Formulas from their parts, with two minus signs in one step. -/
theorem IsFormula.induct_pairs {motive : (e : Expr) → e.IsFormula → Prop}
    (name : ∀ p n (hn : Token.isLexeme .identifier n = true), motive (.name p n) hn)
    (number : ∀ p raw (hraw : Token.isLexeme .number raw = true), motive (.literal p raw) hraw)
    (unary : ∀ p op operand (hop : op = .not ∨ op = .neg) (h : operand.IsFormula),
      (op = .neg → operand.isNegation = false) → motive operand h →
      motive (.unary p op operand) ⟨hop, h⟩)
    (doubled : ∀ p q operand (h : operand.IsFormula), motive operand h →
      motive (.unary p .neg (.unary q .neg operand)) ⟨.inr rfl, .inr rfl, h⟩)
    (binary : ∀ p op l r (hop : op ∈ BinaryOp.all) (hl : l.IsFormula) (hr : r.IsFormula),
      motive l hl → motive r hr → motive (.binary p op l r) ⟨hop, hl, hr⟩)
    (e : Expr) (he : e.IsFormula) : motive e he := by
  fun_induction joinMinus e with
  | case1 p q operand ih => exact doubled p q operand he.2.2 (ih he.2.2)
  | case2 p op operand hsingle ih =>
    refine unary p op operand he.1 he.2 ?_ (ih he.2)
    intro hneg
    cases operand with
    | unary q op' x =>
      cases op' with
      | neg => exact (hsingle q x hneg rfl).elim
      | _ => rfl
    | _ => rfl
  | case3 p op l r ihl ihr =>
    exact binary p op l r he.1 he.2.1 he.2.2 (ihl he.2.1) (ihr he.2.2)
  | case4 e hdoubled hunary hbinary =>
    cases e with
    | name p n => exact name p n he
    | literal p raw => exact number p raw he
    | unary p op operand => exact (hunary p op operand rfl).elim
    | binary p op l r => exact (hbinary p op l r rfl).elim
    | _ => exact he.elim

/-- Where no minus sign stands before another one, nothing is joined. -/
theorem joinMinus_of_not_doublesMinus {e : Expr} (he : e.IsFormula)
    (h : e.doublesMinus = false) : e.joinMinus = e := by
  induction e, he using IsFormula.induct_pairs with
  | name | number => rfl
  | unary p op operand hop hoperand hsingle ih =>
    rw [doublesMinus_unary hsingle] at h
    rw [joinMinus_unary hsingle, ih h]
  | doubled => cases h
  | binary p op l r hop hl hr ihl ihr =>
    obtain ⟨hl, hr⟩ := Bool.or_eq_false_iff.mp h
    rw [joinMinus, ihl hl, ihr hr]

theorem minusPairs_pos_of_doublesMinus {e : Expr} (he : e.IsFormula)
    (h : e.doublesMinus = true) : 0 < e.minusPairs := by
  induction e, he using IsFormula.induct_pairs with
  | name | number => cases h
  | unary p op operand hop hoperand hsingle ih =>
    rw [doublesMinus_unary hsingle] at h
    rw [minusPairs_unary hsingle]
    exact ih h
  | doubled => exact Nat.succ_pos _
  | binary p op l r hop hl hr ihl ihr =>
    rw [minusPairs]
    rcases Bool.or_eq_true_iff.mp h with hl | hr
    · exact Nat.add_pos_left (ihl hl) _
    · exact Nat.add_pos_right _ (ihr hr)

theorem chainLength_joinMinus (op : BinaryOp) {e : Expr} (he : e.IsFormula) :
    e.joinMinus.chainLength op = e.chainLength op := by
  induction e, he using IsFormula.induct_pairs with
  | name | number | doubled => rfl
  | unary p op' operand hop hoperand hsingle ih =>
    rw [joinMinus_unary hsingle]
    rfl
  | binary p op' l r hop hl hr ihl ihr => rw [joinMinus, chainLength, chainLength, ihl, ihr]

end Expr

/-! ## Tokens with minus signs joined -/

namespace Style

variable {style : Style} {word : BinaryOp → Token} {slot : Slot}

/-- Which operator stands before an operand makes no difference to brackets. -/
theorem wraps_unary (p : Pos) (op op' : UnaryOp) (operand operand' : Expr) :
    style.wraps slot (.unary p op operand) = style.wraps slot (.unary p op' operand') := by
  cases slot <;> rfl

/-- Joining minus signs changes no operands, and so no brackets, of a chain. -/
theorem linkWraps_joinMinus (p : Pos) (op : BinaryOp) {l r : Expr} (hl : l.IsFormula)
    (hr : r.IsFormula) :
    style.linkWraps slot op (.binary p op l.joinMinus r.joinMinus) =
      style.linkWraps slot op (.binary p op l r) := by
  have hlength : ∀ op', (Expr.binary p op l.joinMinus r.joinMinus).chainLength op' =
      (Expr.binary p op l r).chainLength op' := by
    intro op'
    rw [Expr.chainLength, Expr.chainLength, Expr.chainLength_joinMinus op' hl,
      Expr.chainLength_joinMinus op' hr]
  cases slot <;> simp only [linkWraps, wrapsComparisons, hlength]

/-- The operands stand in the same slots when their minus signs are joined. -/
theorem spell_joinMinus_binary (p : Pos) (op : BinaryOp) {l r : Expr} (hl : l.IsFormula)
    (hr : r.IsFormula) :
    style.spell word slot (Expr.binary p op l r).joinMinus =
      style.placeTokens slot (.binary p op l r)
        (style.spell word (style.leftSlot slot op (.binary p op l r)) l.joinMinus ++ word op ::
          style.spell word (style.rightSlot slot op (.binary p op l r)) r.joinMinus) := by
  rw [Expr.joinMinus, spell_binary, placeTokens, placeTokens, leftSlot, leftSlot, rightSlot,
    rightSlot, linkWraps_joinMinus p op hl hr,
    wraps_binary style slot op p p l.joinMinus r.joinMinus l r]

theorem spell_joinMinus_unary {p : Pos} {op op' : UnaryOp} {operand operand' : Expr}
    (h : (Expr.unary p op operand).joinMinus = .unary p op' operand') :
    style.spell word slot (Expr.unary p op operand).joinMinus =
      style.placeTokens slot (.unary p op operand)
        (.symbol op'.symbol :: style.spell word .prefixed operand') := by
  rw [h, spell, placeTokens, placeTokens, wraps_unary p op' op operand' operand]

theorem length_placeTokens (slot : Slot) (e : Expr) (ts : List Token) :
    (style.placeTokens slot e ts).length = ts.length + if style.wraps slot e then 2 else 0 := by
  unfold placeTokens
  split <;> simp

/-- Two signs that are joined count as one. -/
theorem length_spell_joinMinus (style : Style) (word : BinaryOp → Token) {e : Expr}
    (he : e.IsFormula) (slot : Slot) :
    (style.spell word slot e).length =
      (style.spell word slot e.joinMinus).length + e.minusPairs := by
  induction e, he using Expr.IsFormula.induct_pairs generalizing slot with
  | name | number => rfl
  | unary p op operand hop hoperand hsingle ih =>
    rw [spell_joinMinus_unary (Expr.joinMinus_unary hsingle p), spell, length_placeTokens,
      length_placeTokens, List.length_cons, List.length_cons, ih, Expr.minusPairs_unary hsingle]
    omega
  | doubled p q operand hoperand ih =>
    have hinner : style.spell word .prefixed (.unary q .neg operand) =
        .symbol UnaryOp.neg.symbol :: style.spell word .prefixed operand := rfl
    rw [spell_joinMinus_unary (Expr.joinMinus_doubled p q operand), spell, hinner,
      length_placeTokens, length_placeTokens, List.length_cons, List.length_cons,
      List.length_cons, ih, Expr.minusPairs]
    omega
  | binary p op l r hop hl hr ihl ihr =>
    rw [spell_joinMinus_binary p op hl hr, spell_binary, length_placeTokens, length_placeTokens]
    simp only [List.length_append, List.length_cons, ihl, ihr, Expr.minusPairs]
    omega

end Style

/-! ## Texts and signs -/

/-- The characters of a text that are no blanks. -/
def Text.withoutBlanks (text : String) : List Char :=
  text.toList.filter (· ≠ ' ')

/-- The characters of tokens, one behind the other. -/
def Token.chars (ts : List Token) : List Char :=
  ts.flatMap fun t => t.text.toList

theorem Token.chars_cons (t : Token) (ts : List Token) :
    chars (t :: ts) = t.text.toList ++ chars ts := rfl

theorem Token.chars_append (ts us : List Token) : chars (ts ++ us) = chars ts ++ chars us :=
  List.flatMap_append

namespace Text

theorem withoutBlanks_append (t u : String) :
    withoutBlanks (t ++ u) = withoutBlanks t ++ withoutBlanks u := by
  simp [withoutBlanks]

/-- Only literals have blanks in them. -/
theorem withoutBlanks_of_isLexeme {kind : Kind} {text : String}
    (h : Token.isLexeme kind text = true) (hkind : kind ≠ .string) :
    withoutBlanks text = text.toList := by
  apply List.filter_eq_self.mpr
  intro c hc
  rw [decide_eq_true_eq]
  rintro rfl
  rcases Token.mem_of_isLexeme h hkind hc with hword | hmark
  · cases hword
  · revert hmark
    decide

end Text

namespace Setting

variable {s : Setting} {slot : Slot} {e : Expr} {text : String} {ts us : List Token}

/-- The text of a formula in its slot shows the signs of the formula, and it is cut into the
signs of the formula with its minus signs joined. -/
structure Spelled (s : Setting) (slot : Slot) (e : Expr) (text : String) : Prop where
  render : s.render slot e = .ok text
  shows : Text.withoutBlanks text = Token.chars (s.style.spell s.style.sign slot e)
  scans : Scans closes text.toList (s.style.spell s.style.sign slot e.joinMinus)
  apart : slot = .prefixed → e.isNegation = false → StartsApart text

/-- A formula with the brackets that its slot asks for. -/
theorem Spelled.place (hrender : s.render slot e = .ok (s.style.place slot e text))
    (hspell : s.style.spell s.style.sign slot e = s.style.placeTokens slot e ts)
    (hjoined : s.style.spell s.style.sign slot e.joinMinus = s.style.placeTokens slot e us)
    (hshows : Text.withoutBlanks text = Token.chars ts) (hscans : Scans closes text.toList us)
    (hreceiver : slot = .receiver → s.style.wraps slot e = true)
    (hapart : slot = .prefixed → e.isNegation = false →
      s.style.wraps slot e = true ∨ StartsApart text) :
    Spelled s slot e (s.style.place slot e text) := by
  refine ⟨hrender, ?_, ?_, ?_⟩
  · rw [hspell]
    unfold Style.place Style.placeTokens
    split
    · rw [Text.bracketed, Text.withoutBlanks_append, Text.withoutBlanks_append, hshows,
        List.cons_append, Token.chars_cons, Token.chars_append]
      rfl
    · exact hshows
  · rw [hjoined]
    exact (scans_place hscans hreceiver).mono fun _ => stops_of_closes
  · intro hslot hsingle
    cases hwraps : s.style.wraps slot e with
    | true => exact startsApart_place hwraps
    | false =>
      rw [Style.place, if_neg (by simp [hwraps])]
      exact (hapart hslot hsingle).resolve_left (by simp [hwraps])

theorem spelled_name {p : Pos} {n : String} (hn : Token.isLexeme .identifier n = true) :
    Spelled s slot (.name p n) n := by
  refine ⟨rfl, ?_, ?_, fun _ _ => startsApart_word hn⟩
  · rw [Text.withoutBlanks_of_isLexeme hn (by decide)]
    exact (List.append_nil _).symm
  · exact scans_word hn fun c hc => follows_word (by simp [follows, hc])

theorem spelled_number {p : Pos} {raw : String} (hraw : Token.isLexeme .number raw = true) :
    Spelled s slot (.literal p raw) raw := by
  have hliteral : Vocabulary.lexical.IsLiteral raw := .inl (.inr hraw)
  refine ⟨?_, ?_, scans_literal hliteral, ?_⟩
  · have hwords : raw ≠ "true" ∧ raw ≠ "false" := by
      constructor <;> rintro rfl <;> exact absurd hraw (by decide)
    show Except.ok (s.style.literal raw) = _
    rw [Style.literal, if_neg hwords.1, if_neg hwords.2]
  · obtain ⟨kind, htoken, -, -⟩ := Token.literal_eq hliteral
    rw [Text.withoutBlanks_of_isLexeme hraw (by decide), Style.spell, htoken]
    exact (List.append_nil _).symm
  · intro _ _
    obtain ⟨c, hc, hstart⟩ := Token.isLexeme_head hraw
    refine ⟨c, hc, ?_, ?_⟩ <;> rintro rfl <;> cases hstart

/-- An operator before an operand, or two that are joined to one. -/
theorem Spelled.unary {p : Pos} {op op' : UnaryOp} {operand operand' : Expr}
    (hjoined : (Expr.unary p op operand).joinMinus = .unary p op' operand')
    (hrender : s.render slot (.unary p op operand) =
      .ok (s.style.place slot (.unary p op operand) text))
    (hshows : Text.withoutBlanks text =
      Token.chars (.symbol op.symbol :: s.style.spell s.style.sign .prefixed operand))
    (hscans : Scans closes text.toList
      (.symbol op'.symbol :: s.style.spell s.style.sign .prefixed operand'))
    (hapart : op ≠ .neg → StartsApart text) :
    Spelled s slot (.unary p op operand) (s.style.place slot (.unary p op operand) text) := by
  refine .place hrender rfl ?_ hshows hscans (fun hslot => by rw [hslot]; rfl) ?_
  · exact Style.spell_joinMinus_unary hjoined
  · intro _ hsingle
    refine .inr (hapart ?_)
    rintro rfl
    cases hsingle

theorem spelled_not (hs : s.style.PlainOperators) {p : Pos} {operand : Expr}
    (h : Spelled s .prefixed operand text) :
    Spelled s slot (.unary p .not operand)
      (s.style.place slot (.unary p .not operand) ("!" ++ " " ++ text)) := by
  refine .unary (Expr.joinMinus_unary (by simp) p) ?_ ?_ (scans_not h.scans) ?_
  · rw [render_not, h.render, hs.notWord]
    rfl
  · rw [Text.withoutBlanks_append, h.shows]
    rfl
  · intro _
    exact ⟨'!', by simp, by decide, by decide⟩

theorem spelled_neg {p : Pos} {operand : Expr} (h : Spelled s .prefixed operand text)
    (hsingle : operand.isNegation = false) :
    Spelled s slot (.unary p .neg operand)
      (s.style.place slot (.unary p .neg operand) ("-" ++ text)) := by
  refine .unary (Expr.joinMinus_unary (fun _ => hsingle) p) ?_ ?_
    (scans_neg h.scans (h.apart rfl hsingle)) (absurd rfl)
  · rw [render_neg, h.render]
    rfl
  · rw [Text.withoutBlanks_append, h.shows]
    rfl

/-- Two minus signs have no blank between them and are one token, whatever follows. -/
theorem spelled_doubled {p q : Pos} {operand : Expr} (h : Spelled s .prefixed operand text) :
    Spelled s slot (.unary p .neg (.unary q .neg operand))
      (s.style.place slot (.unary p .neg (.unary q .neg operand)) ("-" ++ ("-" ++ text))) := by
  refine .unary (Expr.joinMinus_doubled p q operand) ?_ ?_ ?_ (absurd rfl)
  · rw [render_neg, render_neg, h.render]
    rfl
  · rw [Text.withoutBlanks_append, Text.withoutBlanks_append, h.shows]
    rfl
  · have hlexeme : Token.isLexeme .operator "--" = true := rfl
    have hsign : Scans (fun _ => true) ['-', '-'] [.symbol UnaryOp.doubleMinus.symbol] :=
      Scans.lexeme hlexeme fun _ _ => rfl
    simpa using hsign.then_append h.scans

theorem spelled_binary (hs : s.style.PlainOperators) {p : Pos} {op : BinaryOp} {l r : Expr}
    {left right : String} (hop : op ∈ BinaryOp.all) (hl : l.IsFormula) (hr : r.IsFormula)
    (hleft : Spelled s (s.style.leftSlot slot op (.binary p op l r)) l left)
    (hright : Spelled s (s.style.rightSlot slot op (.binary p op l r)) r right) :
    Spelled s slot (.binary p op l r) (s.style.place slot (.binary p op l r)
      (left ++ " " ++ s.style.operator op ++ " " ++ right)) := by
  refine .place ?_ (Style.spell_binary p op l r) (Style.spell_joinMinus_binary p op hl hr) ?_
    (scans_binary hs hop hleft.scans hright.scans) (fun hslot => by rw [hslot]; rfl)
    (fun hslot _ => .inl (by rw [hslot]; rfl))
  · rw [render_operands, hleft.render, hright.render]
    rfl
  · have hsign := Text.withoutBlanks_of_isLexeme (operator_lexeme hs hop).1 (by decide)
    have hblank : Text.withoutBlanks " " = [] := rfl
    simp only [Text.withoutBlanks_append, hleft.shows, hright.shows, hsign, hblank,
      Token.chars_append, Token.chars_cons, List.append_nil, List.append_assoc]
    rfl

/-- Every formula has a text in every slot. -/
theorem exists_spelled (hs : s.style.PlainOperators) (he : e.IsFormula) (slot : Slot) :
    ∃ text, Spelled s slot e text := by
  induction e, he using Expr.IsFormula.induct_pairs generalizing slot with
  | name p n hn => exact ⟨n, spelled_name hn⟩
  | number p raw hraw => exact ⟨raw, spelled_number hraw⟩
  | unary p op operand hop hoperand hsingle ih =>
    obtain ⟨text, htext⟩ := ih .prefixed
    rcases hop with rfl | rfl
    · exact ⟨_, spelled_not hs htext⟩
    · exact ⟨_, spelled_neg htext (hsingle rfl)⟩
  | doubled p q operand hoperand ih =>
    obtain ⟨text, htext⟩ := ih .prefixed
    exact ⟨_, spelled_doubled htext⟩
  | binary p op l r hop hl hr ihl ihr =>
    obtain ⟨left, hleft⟩ := ihl (s.style.leftSlot slot op (.binary p op l r))
    obtain ⟨right, hright⟩ := ihr (s.style.rightSlot slot op (.binary p op l r))
    exact ⟨_, spelled_binary hs hop hl hr hleft hright⟩

end Setting

/-- **Signs of a formula.**  In a style that spells operators as the source does, the text of a
formula without its blanks is the row of the formula's signs: its names, numbers and operators,
with `=` for `==`, and the brackets that rendering adds.  The text is cut into the signs of the
formula with its minus signs joined, so into one token for each sign exactly if no minus sign
stands directly before another one. -/
theorem tokenize_formula (s : Setting) (hs : s.style.PlainOperators) {e : Expr}
    (he : e.IsFormula) :
    ∃ text tokens, s.render .whole e = .ok text ∧ tokenize text = .ok tokens ∧
      Text.withoutBlanks text = Token.chars (s.style.spell s.style.sign .whole e) ∧
      unplaced tokens = s.style.spell s.style.sign .whole e.joinMinus ++ [.bare .eof ""] ∧
      (unplaced tokens = s.style.spell s.style.sign .whole e ++ [.bare .eof ""] ↔
        e.doublesMinus = false) := by
  obtain ⟨text, htext⟩ := Setting.exists_spelled hs he .whole
  obtain ⟨tokens, htokenize, htokens⟩ := htext.scans.tokenize_eq
  refine ⟨text, tokens, htext.render, htokenize, htext.shows, htokens, ?_, ?_⟩
  · intro hsigns
    have hsame := List.append_cancel_right (htokens.symm.trans hsigns)
    have hlength := Style.length_spell_joinMinus s.style s.style.sign he .whole
    rw [hsame] at hlength
    cases hdoubles : e.doublesMinus with
    | false => rfl
    | true =>
      have hpairs := Expr.minusPairs_pos_of_doublesMinus he hdoubles
      omega
  · intro hsingle
    rw [htokens, Expr.joinMinus_of_not_doublesMinus he hsingle]

/-- The formula `a - -(-(-b)) <= !(c == -1.)`. -/
def Expr.tripleMinus : Expr :=
  let p : Pos := ⟨1, 1⟩
  .binary p .le
    (.binary p .sub (.name p "a") (.unary p .neg (.unary p .neg (.unary p .neg (.name p "b")))))
    (.unary p .not (.binary p .eq (.name p "c") (.unary p .neg (.literal p "1."))))

/-- Of three minus signs before an operand two are lost in one token.  The one behind another
operator and the one behind a bracket stand for themselves. -/
theorem tokenize_formula_tripleMinus :
    Style.sourceLike.PlainOperators ∧ Expr.tripleMinus.IsFormula ∧
      Expr.tripleMinus.doublesMinus = true ∧
      Setting.render ⟨.sourceLike, .empty⟩ .whole Expr.tripleMinus =
        .ok "a - ---b <= ! (c = -1.)" ∧
      ∃ tokens, tokenize "a - ---b <= ! (c = -1.)" = .ok tokens ∧
        (unplaced tokens).map Token.text =
          ["a", "-", "--", "-", "b", "<=", "!", "(", "c", "=", "-", "1.", ")", ""] ∧
        (Style.sourceLike.spell Style.sourceLike.sign .whole Expr.tripleMinus).map Token.text =
          ["a", "-", "-", "-", "-", "b", "<=", "!", "(", "c", "=", "-", "1.", ")"] := by
  have hs : Style.sourceLike.PlainOperators := ⟨rfl, rfl, rfl, rfl, rfl⟩
  have he : Expr.tripleMinus.IsFormula := by
    have hname : ∀ n ∈ ["a", "b", "c"], Token.isLexeme .identifier n = true := by decide
    have hraw : Token.isLexeme .number "1." = true := by decide
    have hop : ∀ op ∈ [BinaryOp.le, .sub, .eq], op ∈ BinaryOp.all := by decide
    simp [Expr.tripleMinus, Expr.IsFormula, hname, hraw, hop]
  have hrender : Setting.render ⟨.sourceLike, .empty⟩ .whole Expr.tripleMinus =
      .ok "a - ---b <= ! (c = -1.)" := rfl
  obtain ⟨text, tokens, htext, htokenize, -, htokens, -⟩ :=
    tokenize_formula ⟨.sourceLike, .empty⟩ hs he
  obtain rfl := Except.ok.inj (htext.symm.trans hrender)
  refine ⟨hs, he, rfl, hrender, tokens, htokenize, ?_, rfl⟩
  rw [htokens]
  rfl

end Pseudocode
