import Mathlib.Data.List.Forall2
import Pseudocode.Proofs.Render.Brackets
import Pseudocode.Proofs.Render.Total
set_option autoImplicit false

/-!
# Rendered expressions can be read again

In a style that spells operators and truth values as the source does, the text of an
expression is cut into the tokens of its spelling.  Read again, with `=` for `==` undone,
they are the expression up to positions and the grouping of `&&` and `||`.
-/

namespace Pseudocode

open Token (Scans)

/-- Operators, truth values and methods are spelled as in the source, except that `==` is
written `=`. -/
structure Style.PlainSpelling (style : Style) : Prop where
  andWord : style.andWord = "&&"
  orWord : style.orWord = "||"
  notWord : style.notWord = "!"
  notEqual : style.notEqual = "!="
  modulo : style.modulo = "%"
  trueWord : style.trueWord = "true"
  falseWord : style.falseWord = "false"
  methods : style.methods = .empty

/-- Operators are spelled as in the source, except that `==` is written `=`. -/
structure Style.PlainOperators (style : Style) : Prop where
  andWord : style.andWord = "&&"
  orWord : style.orWord = "||"
  notWord : style.notWord = "!"
  notEqual : style.notEqual = "!="
  modulo : style.modulo = "%"

theorem Style.PlainSpelling.operators {style : Style} (hs : style.PlainSpelling) :
    style.PlainOperators :=
  ⟨hs.andWord, hs.orWord, hs.notWord, hs.notEqual, hs.modulo⟩

/-- The token of an operator as the style writes it. -/
def Style.sign (style : Style) (op : BinaryOp) : Token :=
  .symbol (style.operator op)

/-- The tokens of two operands with an operator between them. -/
theorem Style.spell_binary {style : Style} {word : BinaryOp → Token} {slot : Slot} (p : Pos)
    (op : BinaryOp) (l r : Expr) :
    style.spell word slot (.binary p op l r) = style.placeTokens slot (.binary p op l r)
      (style.spell word (style.leftSlot slot op (.binary p op l r)) l ++ word op ::
        style.spell word (style.rightSlot slot op (.binary p op l r)) r) := by
  unfold leftSlot rightSlot
  rw [spell]
  split <;> rfl

/-! ## Texts of signs and blanks -/

/-- The signs that are one token, whatever stands behind them. -/
def Pattern.marks : List Pattern :=
  [.openParen, .closeParen, .openBracket, .closeBracket, .comma, .dot]

/-- The characters that may stand behind any expression. -/
def closes (c : Char) : Bool :=
  c == ' ' || c == ')' || c == ']' || c == ','

/-- The characters that may stand behind an expression that is no number. -/
def follows (c : Char) : Bool :=
  closes c || c == '.' || c == '['

namespace Token.Scans

variable {stops stops' : Char → Bool} {cs ds : List Char} {ts us : List Token}

theorem mark {p : Pattern} (hp : p ∈ Pattern.marks) :
    Scans stops (p.text.getD "").toList [p.token] := by
  have hlexeme : ∀ p ∈ Pattern.marks, isLexeme p.kind (p.text.getD "") = true := by decide
  refine Scans.lexeme (hlexeme p hp) ?_
  intro c _
  simp only [Pattern.marks, List.mem_cons, List.not_mem_nil, or_false] at hp
  rcases hp with rfl | rfl | rfl | rfl | rfl | rfl <;>
    simp [absorbs, pairs, Pattern.openParen, Pattern.closeParen, Pattern.openBracket,
      Pattern.closeBracket, Pattern.comma, Pattern.dot]

/-- A piece in round brackets. -/
theorem paren (h : Scans closes cs ts) :
    Scans stops ('(' :: cs ++ [')'])
      (Pattern.openParen.token :: ts ++ [Pattern.closeParen.token]) := by
  have hopen : Scans (fun _ => true) ['('] [Pattern.openParen.token] := mark (by decide)
  have hclose : Scans stops [')'] [Pattern.closeParen.token] := mark (by decide)
  exact hopen.then_append (h.append hclose (by simp [closes]))

/-- A piece in square brackets. -/
theorem bracket (h : Scans closes cs ts) :
    Scans stops ('[' :: cs ++ [']'])
      (Pattern.openBracket.token :: ts ++ [Pattern.closeBracket.token]) := by
  have hopen : Scans (fun _ => true) ['['] [Pattern.openBracket.token] := mark (by decide)
  have hclose : Scans stops [']'] [Pattern.closeBracket.token] := mark (by decide)
  exact hopen.then_append (h.append hclose (by simp [closes]))

end Token.Scans

namespace Setting

variable {s : Setting} {slot : Slot} {e : Expr} {es : List Expr}

/-- The characters that may stand behind an expression in its slot. -/
def stops (slot : Slot) (e : Expr) : Char → Bool :=
  if slot = .receiver ∧ e.isLiteral = false then follows else closes

theorem stops_of_closes {c : Char} (h : closes c = true) : stops slot e c = true := by
  unfold stops
  split
  · simp [follows, h]
  · exact h

theorem follows_of_stops {c : Char} (h : stops slot e c = true) : follows c = true := by
  unfold stops at h
  split at h
  · exact h
  · simp [follows, h]

/-- The text does not run into a minus sign before it. -/
def StartsApart (text : String) : Prop :=
  ∃ c ∈ text.toList.head?, c ≠ '=' ∧ c ≠ '-'

theorem StartsApart.append {text : String} (h : StartsApart text) (tail : String) :
    StartsApart (text ++ tail) := by
  obtain ⟨c, hc, hne⟩ := h
  refine ⟨c, ?_, hne⟩
  obtain ⟨cs, htext⟩ := List.head?_eq_some_iff.mp hc
  simp [htext]

/-- The text of an expression is cut into its tokens, also behind a minus sign and before
a field or a subscript where it may have one. -/
structure Rendered (s : Setting) (slot : Slot) (e : Expr) (text : String) : Prop where
  render : s.render slot e = .ok text
  scans : Scans (stops slot e) text.toList (s.style.spell s.style.sign slot e)
  apart : slot = .receiver ∨ slot = .prefixed ∧ e.isNegation = false → StartsApart text

theorem Rendered.closed {text : String} (h : Rendered s slot e text) :
    Scans closes text.toList (s.style.spell s.style.sign slot e) :=
  h.scans.mono fun _ => stops_of_closes

/-! ## Lists -/

/-- Pieces of text with commas between them. -/
def listed {α : Type} (f : α → List Char) : List α → List Char
  | [] => []
  | a :: as => f a ++ as.flatMap fun b => ',' :: ' ' :: f b

theorem toList_join (ts : List String) : (Text.join ", " ts).toList = listed String.toList ts := by
  cases ts with
  | nil => rfl
  | cons t ts =>
    induction ts generalizing t with
    | nil => simp [listed]
    | cons u ts ih => simpa [Text.join_cons_cons, listed] using ih u

theorem toList_concat (ts : List String) : (Text.concat ts).toList = ts.flatMap String.toList := by
  induction ts with
  | nil => rfl
  | cons t ts ih => simp [Text.concat, ih]

/-- Expressions on their own are rendered one by one. -/
theorem exists_renderAll {P : Expr → String → Prop}
    (h : ∀ e ∈ es, ∃ text, s.render .whole e = .ok text ∧ P e text) :
    ∃ texts, s.renderAll es = .ok texts ∧ List.Forall₂ P es texts := by
  induction es with
  | nil => exact ⟨[], rfl, .nil⟩
  | cons e es ih =>
    obtain ⟨text, htext, hP⟩ := h e List.mem_cons_self
    obtain ⟨texts, htexts, hall⟩ := ih fun a ha => h a (List.mem_cons_of_mem e ha)
    refine ⟨text :: texts, ?_, .cons hP hall⟩
    rw [renderAll_cons, htext, htexts]
    rfl

section Pieces

variable {α β : Type} {f : α → List Token} {g : β → List Char} {as : List α} {bs : List β}

theorem closes_of_continued (bs : List β) (d : Char)
    (h : d ∈ (bs.flatMap fun b => ',' :: ' ' :: g b).head? ∨
      bs.flatMap (fun b => ',' :: ' ' :: g b) = [] ∧ closes d = true) : closes d = true := by
  cases bs with
  | nil => simpa using h
  | cons b bs =>
    obtain rfl : ',' = d := by simpa using h
    rfl

theorem scans_continued (h : List.Forall₂ (fun a b => Scans closes (g b) (f a)) as bs) :
    Scans closes (bs.flatMap fun b => ',' :: ' ' :: g b) (Reading.continued f as) := by
  induction h with
  | nil => exact .nil
  | cons hpiece _ ih =>
    have hcomma : Scans (fun _ => true) [','] [Pattern.comma.token] := .mark (by decide)
    have hall := hcomma.spaced rfl (hpiece.append ih (closes_of_continued _))
    simpa [Reading.continued] using hall

/-- Pieces behind commas. -/
theorem scans_listed (h : List.Forall₂ (fun a b => Scans closes (g b) (f a)) as bs) :
    Scans closes (listed g bs) (Reading.separated f as) := by
  cases h with
  | nil => exact .nil
  | cons hpiece hpieces => exact hpiece.append (scans_continued hpieces) (closes_of_continued _)

/-- Pieces in square brackets. -/
theorem scans_bracketed (h : List.Forall₂ (fun a b => Scans closes (g b) (f a)) as bs) :
    Scans (fun _ => true) (bs.flatMap fun b => '[' :: g b ++ [']']) (Reading.bracketed f as) := by
  induction h with
  | nil => exact .nil
  | cons hpiece _ ih =>
    have hfirst : Scans (fun _ => true) _ _ := Scans.bracket hpiece
    simpa [Reading.bracketed] using hfirst.then_append ih

end Pieces

/-- Expressions on their own, each with a text of its own. -/
theorem exists_rendered_all (h : ∀ e ∈ es, ∃ text, Rendered s .whole e text) :
    ∃ texts, s.renderAll es = .ok texts ∧ List.Forall₂ (fun e t =>
      Scans closes t.toList (s.style.spell s.style.sign .whole e)) es texts := by
  refine exists_renderAll fun e he => ?_
  obtain ⟨text, htext⟩ := h e he
  exact ⟨text, htext.render, htext.closed⟩

/-! ## One lemma for each kind of expression -/

theorem follows_word {c : Char} (h : follows c = true) : Token.isWordPart c = false := by
  simp only [follows, closes, Bool.or_eq_true, beq_iff_eq] at h
  rcases h with ((((h | h) | h) | h) | h) | h <;> subst h <;> decide

/-- A name stands before everything that may follow an expression. -/
theorem scans_word {stops : Char → Bool} {n : String} (hn : Token.isLexeme .identifier n = true)
    (hstops : ∀ c, stops c = true → Token.isWordPart c = false) :
    Scans stops n.toList [.word n] :=
  Scans.lexeme hn hstops

theorem startsApart_word {n : String} (hn : Token.isLexeme .identifier n = true) :
    StartsApart n := by
  obtain ⟨c, hc, hstart⟩ := Token.isLexeme_head hn
  refine ⟨c, hc, ?_, ?_⟩ <;> intro h <;> subst h <;> cases hstart

theorem rendered_name {p : Pos} {n : String} (hn : Token.isLexeme .identifier n = true) :
    Rendered s slot (.name p n) n := by
  refine ⟨rfl, scans_word hn fun c hc => follows_word (follows_of_stops hc), ?_⟩
  intro _
  exact startsApart_word hn

theorem scans_literal {raw : String} (h : Vocabulary.lexical.IsLiteral raw) :
    Scans closes raw.toList [.literal raw] := by
  obtain ⟨kind, htoken, hlexeme, hkind⟩ := Token.literal_eq h
  rw [htoken]
  refine Scans.lexeme hlexeme ?_
  intro c hclose
  have hword := follows_word (c := c) (by simp [follows, hclose])
  rcases hkind with rfl | rfl | ⟨rfl, -⟩
  · simp only [closes, Bool.or_eq_true, beq_iff_eq] at hclose
    rcases hclose with ((rfl | rfl) | rfl) | rfl <;> rfl
  · rfl
  · exact hword

theorem rendered_literal (hs : s.style.PlainSpelling) {p : Pos} {raw : String}
    (hraw : Vocabulary.lexical.IsLiteral raw) : Rendered s slot (.literal p raw) raw := by
  refine ⟨?_, ?_, ?_⟩
  · show Except.ok (s.style.literal raw) = _
    rw [Style.literal, hs.trueWord, hs.falseWord]
    split
    · simp_all
    · split <;> simp_all
  · refine (scans_literal hraw).mono ?_
    intro c hc
    simpa [stops, Expr.isLiteral] using hc
  · intro _
    obtain ⟨kind, -, hlexeme, hkind⟩ := Token.literal_eq hraw
    obtain ⟨c, hc, hstart⟩ := Token.isLexeme_head hlexeme
    refine ⟨c, hc, ?_, ?_⟩ <;> intro h <;> subst h <;>
      rcases hkind with rfl | rfl | ⟨rfl, -⟩ <;> cases hstart

/-- Before a call, a field or a subscript, everything but a literal may be followed by
them. -/
theorem Rendered.receiver {text : String} (h : Rendered s .receiver e text)
    (hliteral : e.isLiteral = false) :
    Scans follows text.toList (s.style.spell s.style.sign .receiver e) := by
  have hscans := h.scans
  rwa [stops, if_pos ⟨rfl, hliteral⟩] at hscans

theorem rendered_index {p : Pos} {base : Expr} {indices : List Expr} {text : String}
    (hbase : Rendered s .receiver base text) (hliteral : base.isLiteral = false)
    (hne : indices ≠ []) (hindices : ∀ i ∈ indices, ∃ text, Rendered s .whole i text) :
    ∃ text, Rendered s slot (.index p base indices) text := by
  obtain ⟨texts, hrender, hall⟩ := exists_rendered_all hindices
  have hbrackets := scans_bracketed hall
  refine ⟨text ++ Text.concat (texts.map Text.subscript), ?_, ?_, ?_⟩
  · rw [render_index, hrender, hbase.render]
    rfl
  · have htext : (Text.concat (texts.map Text.subscript)).toList =
        texts.flatMap fun t => '[' :: t.toList ++ [']'] := by
      rw [toList_concat, List.flatMap_map]
      simp [Text.subscript]
    rw [Style.spell_index, String.toList_append, htext]
    refine (hbase.receiver hliteral).append (hbrackets.mono fun _ _ => rfl) ?_
    intro d hd
    cases hall with
    | nil => exact absurd rfl hne
    | cons =>
      obtain rfl : '[' = d := by simpa using hd
      rfl
  · intro _
    exact (hbase.apart (.inl rfl)).append _

theorem rendered_call {p : Pos} {n : String} {args : List Expr}
    (hn : Token.isLexeme .identifier n = true)
    (hargs : ∀ a ∈ args, ∃ text, Rendered s .whole a text) :
    ∃ text, Rendered s slot (.call p n args) text := by
  obtain ⟨texts, hrender, hall⟩ := exists_rendered_all hargs
  have hscans := scans_listed hall
  refine ⟨n ++ Text.bracketed (Text.join ", " texts), ?_, ?_, ?_⟩
  · rw [render_call, hrender]
    rfl
  · rw [Style.spell_call]
    have hname : Scans (fun c => !Token.isWordPart c) n.toList [.word n] :=
      scans_word hn (by simp)
    have hparen : Scans (stops slot (.call p n args)) _ _ := Scans.paren hscans
    have hall := hname.append hparen ?_
    · simpa [Text.bracketed, toList_join] using hall
    · intro d hd
      obtain rfl : '(' = d := by simpa using hd
      rfl
  · intro _
    exact (startsApart_word hn).append _

/-- The text of a field, or of the name of a method. -/
theorem field_scans {receiver : Expr} {text n : String} (h : Rendered s .receiver receiver text)
    (hliteral : receiver.isLiteral = false) (hn : Token.isLexeme .identifier n = true) :
    Scans (fun c => !Token.isWordPart c) (text ++ "." ++ n).toList
      (s.style.spell s.style.sign .receiver receiver ++ [Pattern.dot.token, .word n]) := by
  have hdot : Scans (fun _ => true) ['.'] [Pattern.dot.token] := .mark (by decide)
  have hname : Scans (fun c => !Token.isWordPart c) n.toList [.word n] := scans_word hn (by simp)
  have hall := (h.receiver hliteral).append (hdot.then_append hname) ?_
  · simpa using hall
  · intro d hd
    obtain rfl : '.' = d := by simpa using hd
    rfl

theorem rendered_property {p : Pos} {receiver : Expr} {text n : String}
    (h : Rendered s .receiver receiver text) (hliteral : receiver.isLiteral = false)
    (hn : Token.isLexeme .identifier n = true) :
    Rendered s slot (.property p receiver n) (text ++ "." ++ n) := by
  refine ⟨?_, ?_, ?_⟩
  · rw [render_property, h.render]
    rfl
  · rw [Style.spell]
    refine (field_scans h hliteral hn).mono ?_
    intro c hc
    simp [follows_word (follows_of_stops hc)]
  · intro _
    rw [String.append_assoc]
    exact (h.apart (.inl rfl)).append _

theorem rendered_methodCall (hs : s.style.PlainSpelling) {p : Pos} {receiver : Expr}
    {text n : String} {args : List Expr} (h : Rendered s .receiver receiver text)
    (hliteral : receiver.isLiteral = false) (hn : Token.isLexeme .identifier n = true)
    (hargs : ∀ a ∈ args, ∃ text, Rendered s .whole a text) :
    ∃ text, Rendered s slot (.methodCall p receiver n args) text := by
  obtain ⟨texts, hrender, hall⟩ := exists_rendered_all hargs
  have hscans := scans_listed hall
  refine ⟨plainCall text n texts, ?_, ?_, ?_⟩
  · have hrule : s.style.methodRule? n texts.length = none := by
      simp [Style.methodRule?, hs.methods, MethodTable.empty, MethodTable.get?]
    rw [render_methodCall, h.render, hrender]
    show s.methodText receiver text n texts = _
    unfold methodText
    rw [hrule]
  · rw [Style.spell_methodCall]
    have hparen : Scans (stops slot (.methodCall p receiver n args)) _ _ := Scans.paren hscans
    have hall := (field_scans h hliteral hn).append hparen ?_
    · simpa [plainCall, Text.bracketed, toList_join] using hall
    · intro d hd
      obtain rfl : '(' = d := by simpa using hd
      rfl
  · intro _
    rw [plainCall, String.append_assoc, String.append_assoc]
    exact (h.apart (.inl rfl)).append _

/-- A text in its slot, with the brackets that the slot asks for.  Before a field or a
subscript it has them. -/
theorem scans_place {text : String} {ts : List Token} (h : Scans closes text.toList ts)
    (hreceiver : slot = .receiver → s.style.wraps slot e = true) :
    Scans (stops slot e) (s.style.place slot e text).toList (s.style.placeTokens slot e ts) := by
  unfold Style.place Style.placeTokens
  cases hwraps : s.style.wraps slot e with
  | true =>
    have hparen : Scans (stops slot e) _ _ := Scans.paren h
    simpa [Text.bracketed] using hparen
  | false =>
    refine h.mono ?_
    intro c hc
    unfold stops at hc
    split at hc
    · rename_i hslot
      rw [hreceiver hslot.1] at hwraps
      cases hwraps
    · exact hc

theorem startsApart_place {text : String} (h : s.style.wraps slot e = true) :
    StartsApart (s.style.place slot e text) := by
  rw [Style.place, if_pos h]
  exact ⟨'(', by simp [Text.bracketed], by decide, by decide⟩

/-- An operator before a blank. -/
theorem scans_symbol {text : String} (h : Token.isLexeme .operator text = true)
    (hspace : Token.absorbs .operator text ' ' = false) :
    Scans (fun c => c == ' ') text.toList [.symbol text] := by
  refine Scans.lexeme h ?_
  intro c hc
  rw [beq_iff_eq.mp hc]
  exact hspace

/-- The sign `!` before an operand, with a blank between them. -/
theorem scans_not {text : String} {ts : List Token} (h : Scans closes text.toList ts) :
    Scans closes ("!" ++ " " ++ text).toList (.symbol UnaryOp.not.symbol :: ts) := by
  have hsign : Scans _ ['!'] [.symbol UnaryOp.not.symbol] := scans_symbol rfl (by decide)
  simpa using hsign.spaced rfl h

/-- A minus sign right before an operand that does not run into it. -/
theorem scans_neg {text : String} {ts : List Token} (h : Scans closes text.toList ts)
    (hapart : StartsApart text) :
    Scans closes ("-" ++ text).toList (.symbol UnaryOp.neg.symbol :: ts) := by
  have hlexeme : Token.isLexeme .operator "-" = true := rfl
  have hsign : Scans (fun c => c != '=' && c != '-') ['-'] [.symbol UnaryOp.neg.symbol] := by
    have habsorbs : ∀ c,
        Token.absorbs .operator "-" c = (decide (c = '-') || decide (c = '=')) := by
      intro c
      simp [Token.absorbs, Token.pairs]
    refine Scans.lexeme hlexeme ?_
    intro c hc
    rw [UnaryOp.symbol, habsorbs]
    simpa [and_comm] using hc
  have hall := hsign.append h ?_
  · simpa using hall
  · intro d hd
    obtain ⟨c, hc, hne⟩ := hapart
    rcases hd with hd | ⟨hnil, -⟩
    · obtain rfl := Option.some.inj ((Option.mem_def.mp hd).symm.trans hc)
      simpa using hne
    · simp [hnil] at hc

theorem rendered_not (hs : s.style.PlainSpelling) {p : Pos} {operand : Expr} {text : String}
    (h : Rendered s .prefixed operand text) :
    ∃ text, Rendered s slot (.unary p .not operand) text := by
  refine ⟨s.style.place slot (.unary p .not operand) ("!" ++ " " ++ text), ?_, ?_, ?_⟩
  · rw [render_not, h.render, hs.notWord]
    rfl
  · rw [Style.spell]
    exact scans_place (scans_not h.closed) (fun hslot => by rw [hslot]; rfl)
  · intro hslot
    rcases hslot with rfl | ⟨rfl, -⟩
    · exact startsApart_place rfl
    · exact ⟨'!', by simp [Style.place, Style.wraps, Expr.isBinary, Expr.isAssign, Expr.isUpdate],
        by decide, by decide⟩

/-- A minus sign stands right before its operand, which therefore is no other negation. -/
theorem rendered_neg {p : Pos} {operand : Expr} {text : String}
    (h : Rendered s .prefixed operand text) (hminus : operand.isNegation = false) :
    ∃ text, Rendered s slot (.unary p .neg operand) text := by
  refine ⟨s.style.place slot (.unary p .neg operand) ("-" ++ text), ?_, ?_, ?_⟩
  · rw [render_neg, h.render]
    rfl
  · rw [Style.spell]
    exact scans_place (scans_neg h.closed (h.apart (.inr ⟨rfl, hminus⟩)))
      (fun hslot => by rw [hslot]; rfl)
  · intro hslot
    rcases hslot with rfl | ⟨-, hneg⟩
    · exact startsApart_place rfl
    · cases hneg

/-- The operators of the style, between blanks. -/
theorem operator_lexeme (hs : s.style.PlainOperators) {op : BinaryOp} (hop : op ∈ BinaryOp.all) :
    Token.isLexeme .operator (s.style.operator op) = true ∧
      Token.absorbs .operator (s.style.operator op) ' ' = false := by
  cases op <;>
    simp only [Style.operator, hs.andWord, hs.orWord, hs.notEqual, hs.modulo, BinaryOp.symbol] <;>
    first | decide | simp [BinaryOp.all] at hop

/-- Two operands with an operator between them. -/
theorem scans_binary (hs : s.style.PlainOperators) {op : BinaryOp} (hop : op ∈ BinaryOp.all)
    {left right : String} {ts us : List Token} (hl : Scans closes left.toList ts)
    (hr : Scans closes right.toList us) :
    Scans closes (left ++ " " ++ s.style.operator op ++ " " ++ right).toList
      (ts ++ s.style.sign op :: us) := by
  obtain ⟨hlexeme, hspace⟩ := operator_lexeme hs hop
  have hall := hl.spaced rfl ((scans_symbol hlexeme hspace).spaced rfl hr)
  simpa [Style.sign] using hall

/-- An operator between operands, each in a slot of its own. -/
theorem rendered_binary (hs : s.style.PlainSpelling) {p : Pos} {op : BinaryOp} {l r : Expr}
    (hop : op ∈ BinaryOp.all) (hl : ∀ slot, ∃ text, Rendered s slot l text)
    (hr : ∀ slot, ∃ text, Rendered s slot r text) :
    ∃ text, Rendered s slot (.binary p op l r) text := by
  obtain ⟨left, hl⟩ := hl (s.style.leftSlot slot op (.binary p op l r))
  obtain ⟨right, hr⟩ := hr (s.style.rightSlot slot op (.binary p op l r))
  refine ⟨s.style.place slot (.binary p op l r)
    (left ++ " " ++ s.style.operator op ++ " " ++ right), ?_, ?_, ?_⟩
  · rw [render_operands, hl.render, hr.render]
    rfl
  · rw [Style.spell_binary]
    exact scans_place (scans_binary hs.operators hop hl.closed hr.closed)
      (fun hslot => by rw [hslot]; rfl)
  · intro hslot
    rcases hslot with rfl | ⟨rfl, -⟩ <;> exact startsApart_place rfl

/-- Every expression that can be read again is rendered, and its text is cut into its
tokens. -/
theorem exists_rendered (hs : s.style.PlainSpelling) (e : Expr) (he : e.Readable false)
    (slot : Slot) : ∃ text, Rendered s slot e text := by
  induction e generalizing slot with
  | name p n => exact ⟨n, rendered_name he⟩
  | literal p raw => exact ⟨raw, rendered_literal hs he⟩
  | index p base indices ihbase ihindices =>
    obtain ⟨hbase, hliteral, -, hne, hindices⟩ := he
    have hindices := Expr.allReadable_iff.mp hindices
    obtain ⟨text, htext⟩ := ihbase hbase .receiver
    exact rendered_index htext hliteral hne fun i hi => ihindices i hi (hindices i hi) .whole
  | call p n args ih =>
    have hargs := Expr.allReadable_iff.mp he.2
    exact rendered_call he.1 fun a ha => ih a ha (hargs a ha) .whole
  | methodCall p receiver n args ihreceiver ihargs =>
    obtain ⟨hreceiver, hliteral, hn, hargs⟩ := he
    have hargs := Expr.allReadable_iff.mp hargs
    obtain ⟨text, htext⟩ := ihreceiver hreceiver .receiver
    exact rendered_methodCall hs htext hliteral hn fun a ha => ihargs a ha (hargs a ha) .whole
  | property p receiver n ih =>
    obtain ⟨hreceiver, hliteral, hn, -⟩ := he
    obtain ⟨text, htext⟩ := ih hreceiver .receiver
    exact ⟨_, rendered_property htext hliteral hn⟩
  | unary p op operand ih =>
    obtain ⟨hop, hoperand, hminus⟩ := he
    obtain ⟨text, htext⟩ := ih hoperand .prefixed
    rcases hop with rfl | rfl
    · exact rendered_not hs htext
    · refine rendered_neg htext ?_
      simpa using hminus rfl
  | binary p op l r ihl ihr =>
    obtain ⟨hop, hl, hr⟩ := he
    exact rendered_binary hs hop (ihl hl) (ihr hr)
  | _ => exact he.elim

end Setting

/-! ## Reading the text again -/

/-- The token with `=` for `==` undone. -/
def Token.asEquality (t : Token) : Token :=
  if t.kind = .operator ∧ t.text = "=" then { t with text := "==" } else t

namespace Style

variable {style : Style} {doubled : Bool}

theorem asEquality_of_kind {t : Token} (h : t.kind ≠ .operator) : t.asEquality = t := by
  simp [Token.asEquality, h]

theorem asEquality_literal (raw : String) : (Token.literal raw).asEquality = .literal raw := by
  refine asEquality_of_kind ?_
  unfold Token.literal
  split
  · simp [Token.bare]
  · split <;> simp [Token.bare]

theorem map_asEquality_placeTokens (slot : Slot) (e : Expr) (ts : List Token) :
    (style.placeTokens slot e ts).map Token.asEquality =
      style.placeTokens slot e (ts.map Token.asEquality) := by
  unfold placeTokens
  split
  · simp only [List.map_append, List.map_cons, List.map_nil]
    rfl
  · rfl

theorem map_asEquality_bracketed {f g : Expr → List Token} {es : List Expr}
    (h : ∀ e ∈ es, (f e).map Token.asEquality = g e) :
    (Reading.bracketed f es).map Token.asEquality = Reading.bracketed g es := by
  induction es with
  | nil => rfl
  | cons e es ih =>
    have ih := ih fun a ha => h a (List.mem_cons_of_mem e ha)
    have he := h e List.mem_cons_self
    simp only [Reading.bracketed, List.flatMap_cons, List.map_append, List.map_cons,
      List.map_nil, he] at ih ⊢
    rw [ih]
    rfl

theorem map_asEquality_separated {f g : Expr → List Token} {es : List Expr}
    (h : ∀ e ∈ es, (f e).map Token.asEquality = g e) :
    (Reading.separated f es).map Token.asEquality = Reading.separated g es := by
  have hcontinued : ∀ es : List Expr, (∀ e ∈ es, (f e).map Token.asEquality = g e) →
      (Reading.continued f es).map Token.asEquality = Reading.continued g es := by
    intro es h
    induction es with
    | nil => rfl
    | cons e es ih =>
      have ih := ih fun a ha => h a (List.mem_cons_of_mem e ha)
      have he := h e List.mem_cons_self
      simp only [Reading.continued, List.flatMap_cons, List.map_append, List.map_cons, he] at ih ⊢
      rw [ih]
      rfl
  cases es with
  | nil => rfl
  | cons e es =>
    rw [Reading.separated, Reading.separated, List.map_append, h e List.mem_cons_self,
      hcontinued es fun a ha => h a (List.mem_cons_of_mem e ha)]

/-- Only the tokens of operators change. -/
theorem map_asEquality_spell {word word' : BinaryOp → Token}
    (hword : ∀ op ∈ BinaryOp.all, (word op).asEquality = word' op) (e : Expr)
    (he : e.Readable doubled) (slot : Slot) :
    (style.spell word slot e).map Token.asEquality = style.spell word' slot e := by
  induction e generalizing slot with
  | name p n => rfl
  | literal p raw =>
    simp only [spell, List.map_cons, List.map_nil, asEquality_literal]
  | index p base indices ihbase ihindices =>
    have hindices := Expr.allReadable_iff.mp he.2.2.2.2
    rw [spell_index, spell_index, List.map_append, ihbase he.1,
      map_asEquality_bracketed fun i hi => ihindices i hi (hindices i hi) .whole]
  | call p n args ih =>
    have hargs := Expr.allReadable_iff.mp he.2
    rw [spell_call, spell_call, List.map_append, List.map_cons, List.map_cons,
      map_asEquality_separated fun a ha => ih a ha (hargs a ha) .whole]
    rfl
  | methodCall p receiver n args ihreceiver ihargs =>
    have hargs := Expr.allReadable_iff.mp he.2.2.2
    rw [spell_methodCall, spell_methodCall, List.map_append, List.map_append, List.map_cons,
      List.map_cons, List.map_cons, ihreceiver he.1,
      map_asEquality_separated fun a ha => ihargs a ha (hargs a ha) .whole]
    rfl
  | property p receiver n ih =>
    rw [spell, spell, List.map_append, ih he.1]
    rfl
  | unary p op operand ih =>
    rw [spell, spell, map_asEquality_placeTokens, List.map_cons, ih he.2.1]
    rcases he.1 with rfl | rfl <;> rfl
  | binary p op l r ihl ihr =>
    unfold spell
    split <;> rw [map_asEquality_placeTokens, List.map_append, List.map_cons, ihl he.2.1,
      ihr he.2.2, hword op he.1]
  | _ => exact he.elim

end Style

/-- Forgetting positions does not touch the equality signs. -/
theorem unplaced_map_asEquality (ts : List Token) :
    unplaced (ts.map Token.asEquality) = (unplaced ts).map Token.asEquality := by
  induction ts with
  | nil => rfl
  | cons t ts ih =>
    simp only [List.map_cons, move_cons, ih]
    congr 1
    unfold Token.asEquality
    rw [apply_ite (move _)]
    rfl

/-- Whatever an unplaced list of tokens spells, tokens at any place spell, too. -/
theorem Reading.SpellsWhole.of_unplaced {ts tokens : List Token} {e : Expr}
    (h : SpellsWhole ts e) (htokens : unplaced tokens = ts ++ [.bare .eof ""]) :
    ∃ e' p, expression tokens = .ok (e', [.eof p]) ∧ unplaced e' = e := by
  have hread := h (.bare .eof "") [] rfl
  rw [← htokens] at hread
  obtain ⟨e', rest, hread, he, hrest⟩ := Tracks.expression.of_moved hread
  cases rest with
  | nil => cases hrest
  | cons t rest =>
    obtain ⟨ht, hrest⟩ := List.cons.inj hrest
    obtain rfl := List.map_eq_nil_iff.mp hrest
    have hkind : t.kind = .eof := congrArg Token.kind ht
    have htext : t.text = "" := congrArg Token.text ht
    refine ⟨e', t.pos, ?_, he⟩
    rw [hread, Token.eof, ← hkind, ← htext]

theorem Style.PlainSpelling.asEquality_sign {style : Style} (hs : style.PlainSpelling)
    {op : BinaryOp} (hop : op ∈ BinaryOp.all) : (style.sign op).asEquality = op.token := by
  cases op <;>
    simp only [Style.sign, Style.operator, hs.andWord, hs.orWord, hs.notEqual, hs.modulo] <;>
    first | decide | simp [BinaryOp.all] at hop

/-- A text of an expression is cut into tokens that are read as the expression again, up to
positions and with its chains grouped to the left. -/
theorem Setting.Rendered.reread {s : Setting} {e : Expr} {text : String}
    (h : s.Rendered .whole e text) (hs : s.style.PlainSpelling) (he : e.Readable false) :
    ∃ tokens e' p, tokenize text = .ok tokens ∧
      Reading.expression (tokens.map Token.asEquality) = .ok (e', [.eof p]) ∧
      unplaced e' = unplaced e.regroup := by
  obtain ⟨tokens, htokenize, htokens⟩ := h.scans.tokenize_eq
  have hunplaced : unplaced (tokens.map Token.asEquality) =
      s.style.spell BinaryOp.token .whole e ++ [.bare .eof ""] := by
    rw [unplaced_map_asEquality, htokens, List.map_append,
      Style.map_asEquality_spell (fun op hop => hs.asEquality_sign hop) e he]
    rfl
  obtain ⟨e', p, hread, he'⟩ := (Style.spellsWhole_spell s.style he).of_unplaced hunplaced
  exact ⟨tokens, e', p, htokenize, hread, he'⟩

/-- In a style that spells operators as the source does, whatever brackets it asks for,
the text of an expression is cut into tokens that, with `=` for `==` undone, are read as
the expression again, to their very end.  Positions apart, only the chains of `&&` and of
`||` may differ: they come back grouped to the left. -/
theorem expression_of_rendered (s : Setting) (hs : s.style.PlainSpelling) (e : Expr)
    (he : e.Readable false) :
    ∃ text tokens e' p, s.render .whole e = .ok text ∧ tokenize text = .ok tokens ∧
      Reading.expression (tokens.map Token.asEquality) = .ok (e', [.eof p]) ∧
      unplaced e' = unplaced e.regroup := by
  obtain ⟨text, htext⟩ := Setting.exists_rendered hs e he .whole
  obtain ⟨tokens, e', p, htokenize, hread, he'⟩ := htext.reread hs he
  exact ⟨text, tokens, e', p, htext.render, htokenize, hread, he'⟩

/-- A style in the spelling of the source that puts brackets wherever a style can. -/
def Style.sourceLike : Style where
  id := "source"
  keywords := Style.structuredKeywords
  andWord := "&&"
  orWord := "||"
  notWord := "!"
  notEqual := "!="
  modulo := "%"
  wrapRelationalInAssign := true
  wrapMulInSub := true

/-- The expression `a == 1 && (!b && xs[-n].f(i, "s") - 2 * k < 3)`, whose chain comes back
grouped to the left. -/
def Expr.nestedChain : Expr :=
  let p : Pos := ⟨1, 1⟩
  .binary p .and (.binary p .eq (.name p "a") (.literal p "1"))
    (.binary p .and (.unary p .not (.name p "b"))
      (.binary p .lt
        (.binary p .sub
          (.methodCall p (.index p (.name p "xs") [.unary p .neg (.name p "n")]) "f"
            [.name p "i", .literal p "\"s\""])
          (.binary p .mul (.literal p "2") (.name p "k")))
        (.literal p "3")))

theorem expression_of_rendered_nestedChain :
    Style.sourceLike.PlainSpelling ∧ Expr.nestedChain.Readable false ∧
      Expr.nestedChain.regroup ≠ Expr.nestedChain ∧
      ∃ text tokens e' p,
        Setting.render ⟨.sourceLike, .empty⟩ .whole Expr.nestedChain = .ok text ∧
        tokenize text = .ok tokens ∧
        Reading.expression (tokens.map Token.asEquality) = .ok (e', [.eof p]) ∧
        unplaced e' = unplaced Expr.nestedChain.regroup := by
  have hs : Style.sourceLike.PlainSpelling := ⟨rfl, rfl, rfl, rfl, rfl, rfl, rfl, rfl⟩
  have he : Expr.nestedChain.Readable false := by
    have hname : ∀ n ∈ ["a", "b", "xs", "n", "f", "i", "k"],
        Token.isLexeme .identifier n = true := by
      decide
    have hraw : ∀ raw ∈ ["1", "2", "3", "\"s\""], Vocabulary.lexical.IsLiteral raw := by
      intro raw hmem
      unfold Vocabulary.IsLiteral Vocabulary.lexical
      revert raw
      decide
    have hop : ∀ op ∈ [BinaryOp.and, .eq, .lt, .sub, .mul], op ∈ BinaryOp.all := by decide
    simp [Expr.nestedChain, Expr.Readable, Expr.AllReadable, Expr.isLiteral, Expr.isIndex,
      Expr.isNegation, hname, hraw, hop]
  refine ⟨hs, he, ?_, expression_of_rendered ⟨.sourceLike, .empty⟩ hs Expr.nestedChain he⟩
  simp [Expr.nestedChain, Expr.regroup, Expr.attach, BinaryOp.isLogical]

end Pseudocode
