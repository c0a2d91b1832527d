import Pseudocode.Proofs.Number.Numeral
import Pseudocode.Proofs.Render.Reread
set_option autoImplicit false

/-!
# Arithmetic

Integer expressions, what they are worth, and how their texts are read.  In a text every
minus sign stands for itself, also right before another one, and the word of the style for
the remainder is an operator behind an operand and a name elsewhere.  Read so, with the
usual precedence, the text of an arithmetic expression is worth what the expression is.
-/

namespace Pseudocode

/-! ## Values -/

/-- The values of variables. -/
abbrev Env : Type := String → Int

/-- The values of calls; a call may fail. -/
abbrev Functions : Type := String → List Int → Option Int

namespace BinaryOp

/-- The operators of arithmetic. -/
def arithmetic : List BinaryOp :=
  [.add, .sub, .mul, .div, .rem]

/-- The outcome of an operator on integers.  Quotients are cut off towards zero, and there
is none by zero. -/
def result? : BinaryOp → Int → Int → Option Int
  | .add, x, y => some (x + y)
  | .sub, x, y => some (x - y)
  | .mul, x, y => some (x * y)
  | .div, x, y => if y = 0 then none else some (x.tdiv y)
  | .rem, x, y => if y = 0 then none else some (x.tmod y)
  | _, _, _ => none

end BinaryOp

namespace Expr

mutual

/-- Names, integers, calls, the operators of arithmetic and minus signs, to any depth. -/
def Arithmetic : Expr → Prop
  | .name _ n => Token.isLexeme .identifier n = true
  | .literal _ raw => Numeral.IsInteger raw
  | .call _ n args => Token.isLexeme .identifier n = true ∧ AllArithmetic args
  | .unary _ op operand => op = .neg ∧ operand.Arithmetic
  | .binary _ op l r => op ∈ BinaryOp.arithmetic ∧ l.Arithmetic ∧ r.Arithmetic
  | _ => False

/-- All of the expressions are arithmetic. -/
def AllArithmetic : List Expr → Prop
  | [] => True
  | e :: es => e.Arithmetic ∧ AllArithmetic es

end

mutual

/-- The variables of an arithmetic expression. -/
def names : Expr → List String
  | .name _ n => [n]
  | .call _ _ args => allNames args
  | .unary _ _ operand => operand.names
  | .binary _ _ l r => l.names ++ r.names
  | _ => []

/-- The variables of arithmetic expressions. -/
def allNames : List Expr → List String
  | [] => []
  | e :: es => e.names ++ allNames es

end

mutual

/-- The value of an arithmetic expression. -/
def value? (calls : Functions) (ρ : Env) : Expr → Option Int
  | .name _ n => some (ρ n)
  | .literal _ raw => if Numeral.IsInteger raw then some (Numeral.integer raw) else none
  | .call _ n args => (values? calls ρ args).bind (calls n)
  | .unary _ .neg operand => (operand.value? calls ρ).map fun x => -x
  | .binary _ op l r => (l.value? calls ρ).bind fun x => (r.value? calls ρ).bind (op.result? x)
  | _ => none

/-- The values of arithmetic expressions. -/
def values? (calls : Functions) (ρ : Env) : List Expr → Option (List Int)
  | [] => some []
  | e :: es => (e.value? calls ρ).bind fun x => (values? calls ρ es).map (x :: ·)

end

@[simp] theorem allArithmetic_iff {es : List Expr} :
    AllArithmetic es ↔ ∀ e ∈ es, e.Arithmetic := by
  induction es with
  | nil => simp [AllArithmetic]
  | cons e es ih => simp [AllArithmetic, ih]

variable {calls : Functions} {ρ σ : Env}

section Equations

variable (calls ρ) (p : Pos)

theorem value?_call (n : String) (args : List Expr) :
    (Expr.call p n args).value? calls ρ = (values? calls ρ args).bind (calls n) := rfl

theorem value?_neg (operand : Expr) :
    (Expr.unary p .neg operand).value? calls ρ = (operand.value? calls ρ).map fun x => -x := rfl

theorem value?_binary (op : BinaryOp) (l r : Expr) :
    (Expr.binary p op l r).value? calls ρ =
      (l.value? calls ρ).bind fun x => (r.value? calls ρ).bind (op.result? x) := rfl

theorem values?_cons (e : Expr) (es : List Expr) :
    values? calls ρ (e :: es) =
      (e.value? calls ρ).bind fun x => (values? calls ρ es).map (x :: ·) := rfl

end Equations

theorem value?_literal {raw : String} (h : Numeral.IsInteger raw) (p : Pos) :
    (Expr.literal p raw).value? calls ρ = some (Numeral.integer raw : Int) :=
  if_pos h

/-- The value depends on nothing but the variables. -/
theorem value?_congr {e : Expr} (h : ∀ n ∈ e.names, ρ n = σ n) :
    e.value? calls ρ = e.value? calls σ := by
  induction e with
  | name p n => exact congrArg some (h n List.mem_cons_self)
  | call p n args ih =>
    have hargs : values? calls ρ args = values? calls σ args := by
      have hall : ∀ m ∈ allNames args, ρ m = σ m := h
      clear h
      induction args with
      | nil => rfl
      | cons e es ihes =>
        rw [values?_cons, values?_cons,
          ih e List.mem_cons_self fun m hm => hall m (List.mem_append_left _ hm),
          ihes (fun a ha => ih a (List.mem_cons_of_mem e ha))
            fun m hm => hall m (List.mem_append_right _ hm)]
    rw [value?_call, value?_call, hargs]
  | unary p op operand ih =>
    cases op with
    | neg => rw [value?_neg, value?_neg, ih h]
    | _ => rfl
  | binary p op l r ihl ihr =>
    rw [value?_binary, value?_binary, ihl fun n hn => h n (List.mem_append_left _ hn),
      ihr fun n hn => h n (List.mem_append_right _ hn)]
  | _ => rfl

/-- The value does not depend on positions. -/
theorem value?_move (φ : Pos → Pos) (e : Expr) :
    (Pseudocode.move φ e).value? calls ρ = e.value? calls ρ := by
  induction e with
  | call p n args ih =>
    have hargs : values? calls ρ (Pseudocode.move φ args) = values? calls ρ args := by
      induction args with
      | nil => rfl
      | cons e es ihes =>
        rw [move_cons, values?_cons, values?_cons, ih e List.mem_cons_self,
          ihes fun a ha => ih a (List.mem_cons_of_mem e ha)]
    rw [move_call, value?_call, value?_call, hargs]
  | unary p op operand ih =>
    cases op with
    | neg => rw [move_unary, value?_neg, value?_neg, ih]
    | _ => rfl
  | binary p op l r ihl ihr => rw [move_binary, value?_binary, value?_binary, ihl, ihr]
  | index | methodCall | newArray | arrayLiteral | newObject => simp [value?]
  | _ => rfl

/-- Arithmetic expressions can be read again. -/
theorem Arithmetic.readable {e : Expr} (h : e.Arithmetic) : e.Readable true := by
  induction e with
  | name p n => exact h
  | literal p raw => exact .inl (.inr (Numeral.IsInteger.isLexeme h))
  | call p n args ih =>
    obtain ⟨hn, hargs⟩ := h
    exact ⟨hn, allReadable_iff.mpr fun a ha => ih a ha (allArithmetic_iff.mp hargs a ha)⟩
  | unary p op operand ih => exact ⟨.inr h.1, ih h.2, fun _ _ => rfl⟩
  | binary p op l r ihl ihr =>
    have hall : ∀ op ∈ BinaryOp.arithmetic, op ∈ BinaryOp.all := by decide
    exact ⟨hall op h.1, ihl h.2.1, ihr h.2.2⟩
  | _ => exact h.elim

/-- There are no chains of conditions in them. -/
theorem Arithmetic.regroup_eq {e : Expr} (h : e.Arithmetic) : e.regroup = e := by
  induction e with
  | name | literal => rfl
  | call p n args ih =>
    have hargs : args.map regroup = args.map id :=
      List.map_congr_left fun a ha => ih a ha (allArithmetic_iff.mp h.2 a ha)
    rw [regroup, regroupAll_eq, hargs, List.map_id]
  | unary p op operand ih => rw [regroup, ih h.2]
  | binary p op l r ihl ihr =>
    have hlogical : ∀ op ∈ BinaryOp.arithmetic, op.isLogical = false := by decide
    rw [regroup, hlogical op h.1, if_neg Bool.false_ne_true, ihl h.2.1, ihr h.2.2]
  | _ => exact h.elim

end Expr

/-! ## Reading a text -/

/-- A text with blanks round every minus sign. -/
def Text.loosened (cs : List Char) : List Char :=
  cs.flatMap fun c => if c = '-' then [' ', '-', ' '] else [c]

namespace Token

/-- Behind the token an operator may follow. -/
def endsOperand (t : Token) : Bool :=
  t.kind == .identifier || t.kind == .number || t.kind == .string || Pattern.closeParen.fits t ||
    Pattern.closeBracket.fits t

/-- The tokens with the given word as the operator for the remainder, wherever it stands
behind an operand. -/
def withRemainder (word : String) : (behind : Bool) → List Token → List Token
  | _, [] => []
  | behind, t :: ts =>
    if behind = true ∧ t.kind = .identifier ∧ t.text = word then
      { t with kind := .operator, text := BinaryOp.rem.symbol } :: withRemainder word false ts
    else t :: withRemainder word t.endsOperand ts

end Token

namespace Style

/-- The arithmetic expression that a text of the style is, read with the usual precedence
to its very end. -/
def arithmetic? (style : Style) (text : String) : Option Expr :=
  match tokenize (String.ofList (Text.loosened text.toList)) with
  | .error _ => none
  | .ok tokens =>
    match Reading.expression (Token.withRemainder style.modulo false tokens) with
    | .ok (e, [t]) => if t.kind = .eof then some e else none
    | _ => none

/-- What a text of the style is worth. -/
def valueOf? (style : Style) (calls : Functions) (ρ : Env) (text : String) : Option Int :=
  (style.arithmetic? text).bind (Expr.value? calls ρ)

end Style

/-! ## The word for the remainder -/

namespace Token

/-- An integer is a number and nothing else. -/
theorem literal_integer {raw : String} (h : Numeral.IsInteger raw) :
    literal raw = .bare .number raw := by
  have hwords : ¬ (raw = "true" ∨ raw = "false") := by
    rintro (rfl | rfl) <;> exact absurd h (by decide)
  have hquote : raw.toList.head?.any Source.isQuote = false := by
    obtain ⟨hne, hdigits⟩ := h
    cases hraw : raw.toList with
    | nil => exact absurd hraw hne
    | cons c cs =>
      have hc : c.isDigit = true := hdigits c (by simp [hraw])
      have hmarks : c ≠ '"' ∧ c ≠ '\'' := by
        constructor <;> rintro rfl <;> cases hc
      simp [Source.isQuote, hmarks]
  rw [literal, if_neg hwords, hquote]
  rfl

variable {word : String} {ts us ts' us' : List Token}

theorem withRemainder_of_not {t : Token} {behind : Bool} (h : behind = false ∨ t.kind ≠ .identifier)
    (ts : List Token) :
    withRemainder word behind (t :: ts) = t :: withRemainder word t.endsOperand ts := by
  refine if_neg ?_
  intro hword
  rcases h with h | h
  · rw [h] at hword
    exact Bool.false_ne_true hword.1
  · exact h hword.2.1

theorem unplaced_withRemainder (behind : Bool) (ts : List Token) :
    unplaced (withRemainder word behind ts) = withRemainder word behind (unplaced ts) := by
  induction ts generalizing behind with
  | nil => rfl
  | cons t ts ih =>
    show _ = withRemainder word behind (unplaced t :: unplaced ts)
    have hmoved : (behind = true ∧ (unplaced t).kind = .identifier ∧ (unplaced t).text = word) =
        (behind = true ∧ t.kind = .identifier ∧ t.text = word) := rfl
    by_cases h : behind = true ∧ t.kind = .identifier ∧ t.text = word
    · rw [withRemainder, if_pos h, withRemainder, if_pos (hmoved.mpr h), ← ih]
      rfl
    · rw [withRemainder, if_neg h, withRemainder, if_neg (hmoved ▸ h)]
      exact congrArg (unplaced t :: ·) (ih t.endsOperand)

/-- The tokens are those of an operand; with the word as an operator they become others. -/
def Respelled (word : String) (ts us : List Token) : Prop :=
  ∀ rest, withRemainder word false (ts ++ rest) = us ++ withRemainder word true rest

namespace Respelled

/-- A name or a number. -/
theorem single {t : Token} (h : t.endsOperand = true) : Respelled word [t] [t] := by
  intro rest
  rw [List.singleton_append, withRemainder_of_not (.inl rfl), h]
  rfl

/-- A sign before an operand. -/
theorem cons {t : Token} (ht : t.endsOperand = false) (h : Respelled word ts us) :
    Respelled word (t :: ts) (t :: us) := by
  intro rest
  rw [List.cons_append, withRemainder_of_not (.inl rfl), ht, h]
  rfl

theorem paren (h : Respelled word ts us) :
    Respelled word (Pattern.openParen.token :: ts ++ [Pattern.closeParen.token])
      (Pattern.openParen.token :: us ++ [Pattern.closeParen.token]) := by
  intro rest
  rw [List.append_assoc, List.cons_append, withRemainder_of_not (.inl rfl)]
  have hopen : Pattern.openParen.token.endsOperand = false := rfl
  rw [hopen, h, List.singleton_append, withRemainder_of_not (.inr (by decide))]
  simp only [List.cons_append, List.append_assoc, List.nil_append]
  rfl

/-- An operator between operands. -/
theorem binary {t : Token} {op : BinaryOp} (h : Respelled word ts us) (h' : Respelled word ts' us')
    (ht : t = op.token ∨ op = .rem ∧ t = .word word) :
    Respelled word (ts ++ t :: ts') (us ++ op.token :: us') := by
  intro rest
  rw [List.append_assoc, h, List.cons_append, List.append_assoc, List.cons_append]
  rcases ht with rfl | ⟨rfl, rfl⟩
  · have hends : op.token.endsOperand = false := rfl
    rw [withRemainder_of_not (.inr (by simp [BinaryOp.token, Token.symbol, Token.bare])), hends, h']
  · rw [withRemainder, if_pos ⟨rfl, rfl, rfl⟩, h']
    rfl

end Respelled

end Token

namespace Style

/-- The token of an operator of arithmetic as the style writes it. -/
def arithmeticSign (style : Style) (op : BinaryOp) : Token :=
  if op = .rem then .word style.modulo else op.token

variable {style : Style}

theorem respelled_place {slot : Slot} {e : Expr} {ts us : List Token}
    (h : Token.Respelled style.modulo ts us) :
    Token.Respelled style.modulo (style.placeTokens slot e ts) (style.placeTokens slot e us) := by
  unfold placeTokens
  split
  · exact h.paren
  · exact h

theorem respelled_args (style : Style) {es : List Expr} {f g : Expr → List Token}
    (h : ∀ e ∈ es, Token.Respelled style.modulo (f e) (g e)) (rest : List Token) :
    Token.withRemainder style.modulo false
        (Reading.separated f es ++ Pattern.closeParen.token :: rest) =
      Reading.separated g es ++ Pattern.closeParen.token ::
        Token.withRemainder style.modulo true rest := by
  have hclose : ∀ behind, Token.withRemainder style.modulo behind
      (Pattern.closeParen.token :: rest) =
        Pattern.closeParen.token :: Token.withRemainder style.modulo true rest :=
    fun behind => Token.withRemainder_of_not (.inr (by decide)) rest
  have hcontinued : ∀ es : List Expr, (∀ e ∈ es, Token.Respelled style.modulo (f e) (g e)) →
      Token.withRemainder style.modulo true
          (Reading.continued f es ++ Pattern.closeParen.token :: rest) =
        Reading.continued g es ++ Pattern.closeParen.token ::
          Token.withRemainder style.modulo true rest := by
    intro es h
    induction es with
    | nil => exact hclose true
    | cons e es ih =>
      have hcomma : Pattern.comma.token.endsOperand = false := rfl
      rw [Reading.continued_cons, Token.withRemainder_of_not (.inr (by decide)), hcomma,
        h e List.mem_cons_self, ih fun a ha => h a (List.mem_cons_of_mem e ha),
        Reading.continued_cons]
  cases es with
  | nil => exact hclose false
  | cons e es =>
    rw [Reading.separated, List.append_assoc, h e List.mem_cons_self,
      hcontinued es fun a ha => h a (List.mem_cons_of_mem e ha), Reading.separated,
      List.append_assoc]

/-- With the word of the style as an operator, the tokens of an expression are those of the
source. -/
theorem respelled_spell (style : Style) {e : Expr} (he : e.Arithmetic) (slot : Slot) :
    Token.Respelled style.modulo (style.spell style.arithmeticSign slot e)
      (style.spell BinaryOp.token slot e) := by
  induction e generalizing slot with
  | name p n => exact .single rfl
  | literal p raw =>
    refine .single ?_
    rw [Token.literal_integer he]
    rfl
  | call p n args ih =>
    have hargs := respelled_args style fun a ha =>
      ih a ha (Expr.allArithmetic_iff.mp he.2 a ha) .whole
    intro rest
    rw [spell_call, spell_call]
    simp only [List.cons_append, List.append_assoc, List.nil_append]
    rw [Token.withRemainder_of_not (.inl rfl), Token.withRemainder_of_not (.inr (by decide))]
    exact congrArg (_ :: _ :: ·) (hargs rest)
  | unary p op operand ih =>
    obtain ⟨rfl, hoperand⟩ := he
    exact respelled_place (.cons rfl (ih hoperand .prefixed))
  | binary p op l r ihl ihr =>
    obtain ⟨hop, hl, hr⟩ := he
    have hlogical : ∀ op ∈ BinaryOp.arithmetic, ¬ op.isLogical = true := by decide
    have hsign : style.arithmeticSign op = op.token ∨
        op = .rem ∧ style.arithmeticSign op = .word style.modulo := by
      unfold arithmeticSign
      split
      · exact .inr ⟨‹_›, rfl⟩
      · exact .inl rfl
    rw [spell, spell, if_neg (hlogical op hop), if_neg (hlogical op hop)]
    exact respelled_place (.binary (ihl hl (.left op)) (ihr hr (.right op)) hsign)
  | _ => exact he.elim

end Style

/-! ## Texts of arithmetic expressions -/

namespace Token

/-- The characters of words are visible ones behind the minus sign. -/
theorem isWordPart_bounds {c : Char} (h : isWordPart c = true) :
    0x30 ≤ c.toNat ∧ c.toNat ≤ 0x7a := by
  unfold isWordPart isWordStart Char.isAlpha Char.isUpper Char.isLower Char.isDigit at h
  simp only [Bool.or_eq_true, Bool.and_eq_true, decide_eq_true_eq, UInt32.le_iff_toNat_le,
    beq_iff_eq] at h
  have hval : c.toNat = c.val.toNat := rfl
  have hbounds : 'A'.val.toNat = 0x41 ∧ 'Z'.val.toNat = 0x5a ∧ 'a'.val.toNat = 0x61 ∧
      'z'.val.toNat = 0x7a ∧ '0'.val.toNat = 0x30 ∧ '9'.val.toNat = 0x39 := by decide
  rcases h with (h | h) | h
  · omega
  · subst h
    decide
  · omega

theorem isBlank_of_isWordPart {c : Char} (h : isWordPart c = true) : Text.isBlank c = false := by
  have hbounds := isWordPart_bounds h
  rw [Text.isBlank, Text.inRanges, List.any_eq_false]
  intro range hrange
  have hranges : ∀ range ∈ Text.blankRanges, range.2 < 0x30 ∨ 0x7a < range.1 := by decide
  have hrange := hranges range hrange
  simp only [Bool.and_eq_true, decide_eq_true_eq]
  omega

/-- A name has no other characters. -/
theorem isWordPart_of_mem {n : String} (h : isLexeme .identifier n = true) :
    ∀ c ∈ n.toList, isWordPart c = true := by
  obtain ⟨c, cs, rfl, hlexeme⟩ := isLexeme_iff.mp h
  have hstart : isWordStart c = true := starts_of_lexeme hlexeme
  have hlen : (cs.takeWhile isWordPart).length = cs.length := by
    rw [lexeme, if_pos hstart] at hlexeme
    exact congrArg Prod.snd (Except.ok.inj hlexeme)
  have hcs : cs.takeWhile isWordPart = cs :=
    List.takeWhile_prefix isWordPart |>.eq_of_length hlen
  intro d hd
  rw [String.toList_ofList] at hd
  rcases List.mem_cons.mp hd with rfl | hd
  · simp [isWordPart, hstart]
  · rw [← hcs] at hd
    exact List.all_eq_true.mp List.all_takeWhile d hd

end Token

namespace Text

theorem loosened_append (cs ds : List Char) : loosened (cs ++ ds) = loosened cs ++ loosened ds :=
  List.flatMap_append

theorem loosened_of_isWordPart {cs : List Char} (h : ∀ c ∈ cs, Token.isWordPart c = true) :
    loosened cs = cs := by
  induction cs with
  | nil => rfl
  | cons c cs ih =>
    have hc : c ≠ '-' := by
      rintro rfl
      exact absurd (h '-' List.mem_cons_self) (by decide)
    rw [loosened, List.flatMap_cons, if_neg hc]
    exact congrArg (c :: ·) (ih fun d hd => h d (List.mem_cons_of_mem c hd))

/-- The text ends with a character that is not blank. -/
def EndsVisibly (text : String) : Prop :=
  ∃ c ∈ text.toList.getLast?, isBlank c = false

theorem EndsVisibly.append {text : String} (h : EndsVisibly text) (front : String) :
    EndsVisibly (front ++ text) := by
  obtain ⟨c, hc, hblank⟩ := h
  refine ⟨c, ?_, hblank⟩
  rw [String.toList_append, List.getLast?_append]
  simp [Option.mem_def.mp hc]

theorem endsVisibly_bracketed (text : String) : EndsVisibly (bracketed text) :=
  EndsVisibly.append ⟨')', rfl, by decide⟩ ("(" ++ text)

theorem endsVisibly_of_isWordPart {text : String} (hne : text.toList ≠ [])
    (h : ∀ c ∈ text.toList, Token.isWordPart c = true) : EndsVisibly text := by
  refine ⟨text.toList.getLast hne, List.getLast?_eq_some_getLast hne, ?_⟩
  exact Token.isBlank_of_isWordPart (h _ (List.getLast_mem hne))

end Text

namespace Setting

variable {s : Setting} {slot : Slot} {e : Expr} {es : List Expr}

/-- The text of an arithmetic expression, with blanks round minus signs, is cut into its
tokens. -/
structure Written (s : Setting) (slot : Slot) (e : Expr) (text : String) : Prop where
  render : s.render slot e = .ok text
  scans :
    Token.Scans closes (Text.loosened text.toList) (s.style.spell s.style.arithmeticSign slot e)
  visible : Text.EndsVisibly text

/-- A name or a number is written as it is. -/
theorem Written.of_isWordPart {text : String} {t : Token} (hne : text.toList ≠ [])
    (h : ∀ c ∈ text.toList, Token.isWordPart c = true) (hrender : s.render slot e = .ok text)
    (hscans : Token.Scans closes text.toList [t])
    (hspell : s.style.spell s.style.arithmeticSign slot e = [t]) : Written s slot e text := by
  refine ⟨hrender, ?_, Text.endsVisibly_of_isWordPart hne h⟩
  rw [Text.loosened_of_isWordPart h, hspell]
  exact hscans

theorem ne_nil_of_isLexeme {kind : Kind} {text : String} (h : Token.isLexeme kind text = true) :
    text.toList ≠ [] := by
  obtain ⟨c, hc, -⟩ := Token.isLexeme_head h
  intro hnil
  rw [hnil] at hc
  cases hc

theorem written_name {p : Pos} {n : String} (h : Token.isLexeme .identifier n = true) :
    Written s slot (.name p n) n :=
  .of_isWordPart (ne_nil_of_isLexeme h) (Token.isWordPart_of_mem h) rfl
    (scans_word h fun c hc => follows_word (by simp [follows, hc])) rfl

theorem written_literal {p : Pos} {raw : String} (h : Numeral.IsInteger raw) :
    Written s slot (.literal p raw) raw := by
  have hdigits : ∀ c ∈ raw.toList, Token.isWordPart c = true := by
    intro c hc
    simp [Token.isWordPart, h.2 c hc]
  have hwords : raw ≠ "true" ∧ raw ≠ "false" := by
    constructor <;> rintro rfl <;> exact absurd h (by decide)
  refine .of_isWordPart h.1 hdigits ?_ (scans_literal (.inl (.inr h.isLexeme))) rfl
  show Except.ok (s.style.literal raw) = _
  rw [Style.literal, if_neg hwords.1, if_neg hwords.2]

theorem loosened_listed (texts : List String) :
    Text.loosened (listed String.toList texts) =
      listed (fun t => Text.loosened t.toList) texts := by
  cases texts with
  | nil => rfl
  | cons t texts =>
    rw [listed, Text.loosened_append, listed]
    congr 1
    rw [Text.loosened, List.flatMap_assoc]
    rfl

theorem written_call {p : Pos} {n : String} {args : List Expr}
    (hn : Token.isLexeme .identifier n = true)
    (hargs : ∀ a ∈ args, ∃ text, Written s .whole a text) :
    ∃ text, Written s slot (.call p n args) text := by
  obtain ⟨texts, hrender, hall⟩ := exists_renderAll (P := fun e t => Token.Scans closes
    (Text.loosened t.toList) (s.style.spell s.style.arithmeticSign .whole e)) fun a ha => by
      obtain ⟨text, htext⟩ := hargs a ha
      exact ⟨text, htext.render, htext.scans⟩
  have htext : (n ++ Text.bracketed (Text.join ", " texts)).toList =
      n.toList ++ ('(' :: listed String.toList texts ++ [')']) := by
    simp [Text.bracketed, toList_join]
  refine ⟨n ++ Text.bracketed (Text.join ", " texts), ?_, ?_, ?_⟩
  · rw [render_call, hrender]
    rfl
  · have hloose : Text.loosened (n ++ Text.bracketed (Text.join ", " texts)).toList =
        n.toList ++ ('(' :: listed (fun t => Text.loosened t.toList) texts ++ [')']) := by
      rw [htext, Text.loosened_append, Text.loosened_of_isWordPart (Token.isWordPart_of_mem hn),
        Text.loosened_append, ← loosened_listed]
      rfl
    have hname : Token.Scans (fun c => !Token.isWordPart c) n.toList [.word n] :=
      scans_word hn (by simp)
    rw [Style.spell_call, hloose]
    refine hname.append (Token.Scans.paren (scans_listed hall)) ?_
    intro d hd
    obtain rfl : '(' = d := by simpa using hd
    rfl
  · exact (Text.endsVisibly_bracketed _).append n

/-- A text in its slot, with the brackets that the slot asks for. -/
theorem Written.place {text : String} {ts : List Token}
    (hrender : s.render slot e = .ok (s.style.place slot e text))
    (hspell : s.style.spell s.style.arithmeticSign slot e = s.style.placeTokens slot e ts)
    (hscans : Token.Scans closes (Text.loosened text.toList) ts)
    (hvisible : Text.EndsVisibly text) :
    Written s slot e (s.style.place slot e text) := by
  refine ⟨hrender, ?_, ?_⟩
  · rw [hspell]
    unfold Style.place Style.placeTokens
    split
    · have hloose : Text.loosened (Text.bracketed text).toList =
          '(' :: Text.loosened text.toList ++ [')'] := by
        simp [Text.bracketed, Text.loosened]
      rw [hloose]
      exact Token.Scans.paren hscans
    · exact hscans
  · unfold Style.place
    split
    · exact Text.endsVisibly_bracketed text
    · exact hvisible

theorem written_neg {p : Pos} {operand : Expr} {text : String}
    (h : Written s .prefixed operand text) :
    Written s slot (.unary p .neg operand)
      (s.style.place slot (.unary p .neg operand) ("-" ++ text)) := by
  refine .place (by rw [render_neg, h.render]; rfl) rfl ?_ (h.visible.append "-")
  have hblank : Token.Scans (fun _ => true) [' '] [] := .space rfl
  have hsign : Token.Scans (fun c => c == ' ') ['-'] [.symbol UnaryOp.neg.symbol] :=
    scans_symbol rfl (by decide)
  have hall := hblank.then_append (hsign.spaced rfl h.scans)
  simpa [Text.loosened] using hall

/-- The operators of arithmetic, between blanks. -/
theorem scans_operator (hmodulo : Token.isLexeme .identifier s.style.modulo = true)
    {op : BinaryOp} (hop : op ∈ BinaryOp.arithmetic) :
    Token.Scans (fun c => c == ' ') (Text.loosened (s.style.operator op).toList)
      [s.style.arithmeticSign op] := by
  by_cases hrem : op = .rem
  · subst hrem
    show Token.Scans _ (Text.loosened s.style.modulo.toList) [.word s.style.modulo]
    rw [Text.loosened_of_isWordPart (Token.isWordPart_of_mem hmodulo)]
    refine scans_word hmodulo ?_
    intro c hc
    rw [beq_iff_eq.mp hc]
    decide
  · have hsymbol : ∀ op ∈ BinaryOp.arithmetic, op ≠ .rem →
        Token.isLexeme .operator op.symbol = true ∧ Token.absorbs .operator op.symbol ' ' = false ∧
          (Text.loosened op.symbol.toList = op.symbol.toList ∨
            Text.loosened op.symbol.toList = ' ' :: (op.symbol.toList ++ [' '])) := by
      decide
    have hoperator : s.style.operator op = op.symbol := by
      cases op <;> first | rfl | exact absurd rfl hrem | exact absurd hop (by decide)
    obtain ⟨hlexeme, habsorbs, hloose⟩ := hsymbol op hop hrem
    have hsign := scans_symbol hlexeme habsorbs
    rw [hoperator, Style.arithmeticSign, if_neg hrem]
    rcases hloose with hloose | hloose
    · rw [hloose]
      exact hsign
    · have hblank : Token.Scans (fun _ => true) [' '] [] := .space rfl
      rw [hloose]
      exact hblank.then_append (hsign.spaced rfl .nil)

/-- Two operands with an operator between them. -/
theorem scans_operands (hmodulo : Token.isLexeme .identifier s.style.modulo = true)
    {op : BinaryOp} (hop : op ∈ BinaryOp.arithmetic) {left right : String} {ts us : List Token}
    (hl : Token.Scans closes (Text.loosened left.toList) ts)
    (hr : Token.Scans closes (Text.loosened right.toList) us) :
    Token.Scans closes
      (Text.loosened (left ++ " " ++ s.style.operator op ++ " " ++ right).toList)
      (ts ++ s.style.arithmeticSign op :: us) := by
  have hall := hl.spaced rfl ((scans_operator hmodulo hop).spaced rfl hr)
  simpa [Text.loosened] using hall

theorem written_binary (hmodulo : Token.isLexeme .identifier s.style.modulo = true) {p : Pos}
    {op : BinaryOp} {l r : Expr} {left right : String} (hop : op ∈ BinaryOp.arithmetic)
    (hl : Written s (.left op) l left) (hr : Written s (.right op) r right) :
    Written s slot (.binary p op l r) (s.style.place slot (.binary p op l r)
      (left ++ " " ++ s.style.operator op ++ " " ++ right)) := by
  have hlogical : ∀ op ∈ BinaryOp.arithmetic, op.isLogical = false := by decide
  refine .place ?_ ?_ (scans_operands hmodulo hop hl.scans hr.scans) (hr.visible.append _)
  · rw [render_binary s slot p (hlogical op hop), hl.render, hr.render]
    rfl
  · rw [Style.spell, hlogical op hop, if_neg Bool.false_ne_true]

/-- Every arithmetic expression is rendered, and its text is cut into its tokens. -/
theorem exists_written (hmodulo : Token.isLexeme .identifier s.style.modulo = true)
    (he : e.Arithmetic) (slot : Slot) : ∃ text, Written s slot e text := by
  induction e generalizing slot with
  | name p n => exact ⟨n, written_name he⟩
  | literal p raw => exact ⟨raw, written_literal he⟩
  | call p n args ih =>
    have hargs := Expr.allArithmetic_iff.mp he.2
    exact written_call he.1 fun a ha => ih a ha (hargs a ha) .whole
  | unary p op operand ih =>
    obtain ⟨rfl, hoperand⟩ := he
    obtain ⟨text, htext⟩ := ih hoperand .prefixed
    exact ⟨_, written_neg htext⟩
  | binary p op l r ihl ihr =>
    obtain ⟨hop, hl, hr⟩ := he
    obtain ⟨left, hleft⟩ := ihl hl (.left op)
    obtain ⟨right, hright⟩ := ihr hr (.right op)
    exact ⟨_, written_binary hmodulo hop hleft hright⟩
  | _ => exact he.elim

end Setting

/-! ## Texts are worth what the expressions are -/

namespace Style

open Reading (loosest Spells SpellsLeft SpellsWhole)

variable {style : Style} {calls : Functions} {ρ : Env} {text : String} {ts us : List Token}
  {e : Expr}

/-- A text is worth what its tokens spell. -/
theorem valueOf?_of_scans {stops : Char → Bool}
    (hscans : Token.Scans stops (Text.loosened text.toList) ts)
    (hrespelled : Token.Respelled style.modulo ts us) (hspells : SpellsWhole us e) :
    style.valueOf? calls ρ text = e.value? calls ρ := by
  have hlist : (String.ofList (Text.loosened text.toList)).toList = Text.loosened text.toList :=
    String.toList_ofList
  rw [← hlist] at hscans
  obtain ⟨tokens, htokens, hunplaced⟩ := hscans.tokenize_eq
  have hoperators : unplaced (Token.withRemainder style.modulo false tokens) =
      us ++ [.bare .eof ""] := by
    rw [Token.unplaced_withRemainder, hunplaced, hrespelled,
      Token.withRemainder_of_not (.inr (by decide))]
    rfl
  obtain ⟨e', p, hread, rfl⟩ := hspells.of_unplaced hoperators
  unfold valueOf? arithmetic?
  rw [htokens]
  simp only [hread]
  exact (Expr.value?_move _ e').symm

/-- The text of an arithmetic expression is worth what the expression is. -/
theorem valueOf?_written {s : Setting} (he : e.Arithmetic) (h : s.Written .whole e text) :
    s.style.valueOf? calls ρ text = e.value? calls ρ := by
  have hspells := spellsWhole_spell s.style he.readable
  rw [reread, he.regroup_eq] at hspells
  rw [valueOf?_of_scans h.scans (respelled_spell s.style he .whole) hspells]
  exact Expr.value?_move _ e

/-- Whatever an arithmetic expression is, a sum may go on behind it. -/
theorem spellsLeft_summand (style : Style) {op : BinaryOp} (hop : op = .add ∨ op = .sub)
    (he : e.Arithmetic) :
    SpellsLeft (loosest - op.precedence) (style.spell BinaryOp.token .whole e) (unplaced e) := by
  have halone := (spelledAlone_and_inChain style e he.readable).1
  have hprecedence : op.precedence = 5 := by rcases hop with rfl | rfl <;> rfl
  have hreread : reread e = unplaced e := by rw [reread, he.regroup_eq]
  rw [hprecedence, ← hreread]
  cases e with
  | binary p op' l r =>
    have hcases : ∀ op ∈ BinaryOp.arithmetic, op.precedence = 5 ∨ op.precedence = 6 := by decide
    rcases hcases op' he.1 with hsum | hproduct
    · have hleft : SpellsLeft (loosest - op'.precedence) _ _ := halone
      rwa [hsum] at hleft
    · have hspells : Spells (loosest - op'.precedence + 1) _ _ := halone.spells
      rw [hproduct] at hspells
      exact hspells.left
  | name | literal | call | unary => exact (halone.spells.mono (Nat.zero_le _)).left
  | _ => exact he.elim

/-- One more summand at the end, which binds less tightly than all that stands before it. -/
theorem valueOf?_summand {s : Setting}
    (hmodulo : Token.isLexeme .identifier s.style.modulo = true) {op : BinaryOp}
    (hop : op = .add ∨ op = .sub) {raw : String} (hraw : Numeral.IsInteger raw)
    (he : e.Arithmetic) (h : s.Written .whole e text) :
    s.style.valueOf? calls ρ (text ++ " " ++ s.style.operator op ++ " " ++ raw) =
      (e.value? calls ρ).bind fun x => op.result? x (Numeral.integer raw) := by
  have harithmetic : op ∈ BinaryOp.arithmetic := by rcases hop with rfl | rfl <;> decide
  have hall : op ∈ BinaryOp.all := by rcases hop with rfl | rfl <;> decide
  have hle : loosest - op.precedence + 1 ≤ loosest := by rcases hop with rfl | rfl <;> decide
  have hsign : s.style.arithmeticSign op = op.token := by rcases hop with rfl | rfl <;> rfl
  have hone : s.Written .whole (.literal .start raw) raw := Setting.written_literal hraw
  have hscans := Setting.scans_operands hmodulo harithmetic h.scans hone.scans
  have hrespelled := (respelled_spell s.style he .whole).binary
    (respelled_spell s.style (e := .literal .start raw) hraw .whole) (.inl hsign)
  have hright : Spells 0 (s.style.spell BinaryOp.token .whole (.literal .start raw))
      (.literal .start raw) := spelledAlone_literal (.inl (.inr hraw.isLexeme))
  have hspells := SpellsLeft.binary hall (precedence_eq op hall) (spellsLeft_summand s.style hop he)
    (hright.mono (Nat.zero_le _))
  have hwhole := hspells.spells.whole hle
  rw [valueOf?_of_scans hscans hrespelled hwhole, Expr.value?_binary, Expr.value?_move,
    Expr.value?_literal hraw]
  rfl

end Style

end Pseudocode
