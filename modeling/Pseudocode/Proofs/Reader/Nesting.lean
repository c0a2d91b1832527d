import Pseudocode.Proofs.Reader.Append
import Pseudocode.Proofs.Reader.Cursor
import Pseudocode.Proofs.Token.Coverage
set_option autoImplicit false

/-!
# Brackets in what is read

Round brackets, square brackets and braces are opened and closed by different readings, but
whatever is read as a whole has them properly nested: each closing one closes the innermost one
that is open, which is of its kind, and none is left open.  Of a program only the parameters of
its method may break the rule, since nothing reads them.
-/

namespace Pseudocode

/-! ## Nested brackets -/

/-- The kinds of brackets. -/
inductive Delimiter where
  | paren
  | bracket
  | brace
  deriving DecidableEq, Repr, Inhabited

/-- The sign that opens brackets of a kind. -/
def Delimiter.opening : Delimiter → Pattern
  | .paren => .openParen
  | .bracket => .openBracket
  | .brace => .openBrace

/-- The sign that closes them. -/
def Delimiter.closing : Delimiter → Pattern
  | .paren => .closeParen
  | .bracket => .closeBracket
  | .brace => .closeBrace

/-- The kinds, in no order that matters. -/
def Delimiter.all : List Delimiter :=
  [.paren, .bracket, .brace]

namespace Token

/-- The kind of the brackets that the token opens, if it does. -/
def opens? (t : Token) : Option Delimiter :=
  Delimiter.all.find? (·.opening.fits t)

/-- The kind of the brackets that the token closes, if it does. -/
def closes? (t : Token) : Option Delimiter :=
  Delimiter.all.find? (·.closing.fits t)

/-- The brackets that are open behind a token, the innermost first, if those in `opened` are open
before it.  A closing bracket has to be of the kind of the innermost one. -/
def nestStep (opened : List Delimiter) (t : Token) : Option (List Delimiter) :=
  match t.opens?, t.closes? with
  | some d, _ => some (d :: opened)
  | none, some d => if opened.head? = some d then some opened.tail else none
  | none, none => some opened

/-- The brackets that are open behind the tokens. -/
def openBehind (opened : List Delimiter) (ts : List Token) : Option (List Delimiter) :=
  ts.foldlM nestStep opened

/-- The brackets among the tokens are properly nested: each closing one closes the innermost open
one, which is of its kind, and none is left open. -/
def IsNested (ts : List Token) : Prop :=
  openBehind [] ts = some []

instance (ts : List Token) : Decidable (IsNested ts) :=
  inferInstanceAs (Decidable (_ = _))

theorem opens?_of_fits {t : Token} {d : Delimiter} (h : d.opening.fits t = true) :
    t.opens? = some d := by
  obtain ⟨kind, text, p⟩ := t
  cases d with
  | paren | bracket | brace =>
    obtain rfl : kind = _ := Reading.kind_of_fits h
    obtain rfl : text = _ := Reading.text_of_fits h rfl
    rfl

theorem closes?_of_fits {t : Token} {d : Delimiter} (h : d.closing.fits t = true) :
    t.opens? = none ∧ t.closes? = some d := by
  obtain ⟨kind, text, p⟩ := t
  cases d with
  | paren | bracket | brace =>
    obtain rfl : kind = _ := Reading.kind_of_fits h
    obtain rfl : text = _ := Reading.text_of_fits h rfl
    exact ⟨rfl, rfl⟩

theorem openBehind_append (opened : List Delimiter) (u w : List Token) :
    openBehind opened (u ++ w) = (openBehind opened u).bind (openBehind · w) :=
  List.foldlM_append

/-- The brackets that are open before the tokens are those that are open behind them. -/
def Neutral (w : List Token) : Prop :=
  ∀ opened, openBehind opened w = some opened

namespace Neutral

variable {t a b : Token} {u w : List Token}

theorem isNested (h : Neutral w) : IsNested w :=
  h []

theorem nil : Neutral [] :=
  fun _ => rfl

theorem append (hu : Neutral u) (hw : Neutral w) : Neutral (u ++ w) := by
  intro opened
  rw [openBehind_append, hu opened, Option.bind_some, hw opened]

/-- A token that is no bracket. -/
theorem cons (ht : t.kind ∉ [Kind.paren, .bracket, .brace]) (hw : Neutral w) :
    Neutral (t :: w) := by
  simp only [List.mem_cons, List.not_mem_nil, or_false, not_or] at ht
  have hsingle : Neutral [t] := fun opened => by
    simp [openBehind, nestStep, opens?, closes?, Delimiter.all, Delimiter.opening,
      Delimiter.closing, Pattern.fits, Pattern.openParen, Pattern.openBracket, Pattern.openBrace,
      Pattern.closeParen, Pattern.closeBracket, Pattern.closeBrace, ht]
  exact hsingle.append hw

/-- A sign that is no bracket. -/
theorem sign {p : Pattern} (ht : p.fits t = true)
    (hp : p.kind ∉ [Kind.paren, .bracket, .brace]) (hw : Neutral w) : Neutral (t :: w) :=
  cons (Reading.kind_of_fits ht ▸ hp) hw

/-- Brackets of one kind with what stands in them. -/
theorem enclose (d : Delimiter) (ha : d.opening.fits a = true) (hw : Neutral w)
    (hb : d.closing.fits b = true) : Neutral (a :: w ++ [b]) := by
  intro opened
  obtain ⟨hopens, hcloses⟩ := closes?_of_fits hb
  have hfront : openBehind opened [a] = some (d :: opened) := by
    simp [openBehind, nestStep, opens?_of_fits ha]
  have hback : openBehind (d :: opened) [b] = some opened := by
    simp [openBehind, nestStep, hopens, hcloses]
  rw [← List.singleton_append, openBehind_append, openBehind_append, hfront, Option.bind_some,
    hw (d :: opened), Option.bind_some, hback]

end Neutral

end Token

open Token (Neutral)

/-! ## Expressions -/

variable {w : List Token}

/-- The tokens that form a part of an expression. -/
theorem Derives.neutral {φ : Phrase} (h : Derives φ w) : Neutral w := by
  induction h with
  | name ht => exact .cons (by simp [ht]) .nil
  | paren ha _ hb ih => exact .enclose .paren ha ih hb
  | call _ ha _ hb ihf ihes =>
    rw [List.append_assoc]
    exact ihf.append (.enclose .paren ha ihes hb)
  | methodCall _ hd ht ha _ hb ihe ihes =>
    rw [List.append_assoc]
    exact ihe.append (.sign hd (by decide) (.cons (by simp [ht]) (.enclose .paren ha ihes hb)))
  | length _ hd ht _ ih | property _ hd ht _ ih =>
    exact ih.append (.sign hd (by decide) (.cons (by simp [ht]) .nil))
  | index _ _ _ ihe ihes => exact ihe.append ihes
  | operand _ ih => exact ih
  | update _ ht ih => exact ih.append (.cons (by simp [(Token.updateOp?_eq_some ht).1]) .nil)
  | literal ht =>
    refine .cons (fun hmem => ?_) .nil
    have hkind := ht.kind_mem
    simp at hmem hkind
    rcases hmem with hmem | hmem | hmem <;> simp [hmem] at hkind
  | newObject hk ht ha _ hb ih =>
    exact .sign hk (by simp [Pattern.keyword]) (.cons (by simp [ht]) (.enclose .paren ha ih hb))
  | newArray hk ht _ _ ih =>
    exact .sign hk (by simp [Pattern.keyword]) (.cons (by rcases ht with ht | ht <;> simp [ht]) ih)
  | newElements hk ht _ _ _ ihds ihe =>
    refine .sign hk (by simp [Pattern.keyword]) (.cons ?_ (ihds.append ihe))
    rcases ht with ht | ht <;> simp [ht]
  | unary ht _ ih => exact .cons (by simp [(Token.unaryOp?_eq_some ht).1]) ih
  | climb _ ih | plain _ ih | expressionItem _ ih | elementsItem _ ih | lastItem _ ih => exact ih
  | binary _ ht _ ihl ihr =>
    exact ihl.append (.cons (by simp [(Reading.levelOp?_eq_some ht).1]) ihr)
  | assign _ _ ht _ ihl ihv =>
    exact ihl.append (.cons (by simp [(Token.assignOp?_eq_some ht).1]) ihv)
  | braces ha _ hb ih => exact .enclose .brace ha ih hb
  | noItem | noBrackets => exact .nil
  | moreItems _ hc _ ihe ihes => exact ihe.append (.sign hc (by decide) ihes)
  | filled ha _ hb _ ihe ihds =>
    have hboth := (Neutral.enclose .bracket ha ihe hb).append ihds
    rwa [List.append_assoc] at hboth
  | empty ha hb _ ih => exact (Neutral.enclose .bracket ha .nil hb).append ih

/-! ## Statements -/

theorem DerivesValue.neutral {value : Option Expr} (h : DerivesValue value w) :
    Neutral w := by
  cases h with
  | none => exact .nil
  | elements ht he | plain ht he => exact .sign ht (by simp [Pattern.operator]) he.neutral

theorem DerivesDeclaration.neutral {t : Token} {d : Declaration}
    (h : DerivesDeclaration t d w) : Neutral w := by
  obtain ⟨hu, hn, hv, hw, hs⟩ := h
  refine Neutral.append (.append (hu.neutral.append (.cons (by simp [hn]) hv.neutral))
    hw.neutral) ?_
  exact .sign hs (by decide) .nil

theorem DerivesAssignment.neutral {a : Assignment} (h : DerivesAssignment a w) :
    Neutral w := by
  obtain ⟨hgoal, -, ht, hvalue, hs⟩ := h
  refine (hgoal.neutral.append (.cons ?_ hvalue.neutral)).append (.sign hs (by decide) .nil)
  simp [(Token.assignOp?_eq_some ht).1]

theorem DerivesUpdate.neutral {x : Update} (h : DerivesUpdate x w) :
    Neutral w := by
  cases h with
  | behind hgoal _ ht =>
    exact hgoal.neutral.append (.cons (by simp [(Token.updateOp?_eq_some ht).1]) .nil)
  | front ht hgoal => exact .cons (by simp [(Token.updateOp?_eq_some ht).1]) hgoal.neutral

theorem DerivesCondition.neutral {e : Expr} (h : DerivesCondition e w) :
    Neutral w := by
  obtain ⟨ha, he, hb⟩ := h
  exact .enclose .paren ha he.neutral hb

theorem DerivesInit.neutral {init : Option ForInit} (h : DerivesInit init w) :
    Neutral w := by
  cases h with
  | none hs => exact .sign hs (by decide) .nil
  | declaration ht hd => exact .cons (by simp [Reading.kind_of_isType ht]) hd.neutral
  | assignment ha => exact ha.neutral

theorem DerivesTest.neutral {test : Option Expr} (h : DerivesTest test w) :
    Neutral w := by
  cases h with
  | none hs => exact .sign hs (by decide) .nil
  | some he hs => exact he.neutral.append (.sign hs (by decide) .nil)

/-- The head of a counting loop closes the bracket that was opened before. -/
theorem DerivesStep.exists_neutral {step : Option ForUpdate}
    (h : DerivesStep step w) :
    ∃ v b, w = v ++ [b] ∧ Neutral v ∧ Pattern.closeParen.fits b = true := by
  cases h with
  | none hb => exact ⟨[], _, rfl, .nil, hb⟩
  | update hu hb => exact ⟨_, _, rfl, hu.neutral, hb⟩
  | expression he hb => exact ⟨_, _, rfl, he.neutral, hb⟩

/-- The tokens that form statements.  Only behind the name `final` any token is taken for a
type. -/
theorem Sentence.neutral {c : Clause} (h : Sentence c w)
    (hfinal : Token.NoFinal w) : Neutral w := by
  have hkeyword : ∀ {word : String},
      (Pattern.keyword word).kind ∉ [Kind.paren, .bracket, .brace] := by simp [Pattern.keyword]
  induction h with
  | block ha _ hb ih => exact .enclose .brace ha (ih fun t ht => hfinal t (by simp [ht])) hb
  | declaration ht hd =>
    refine .cons ?_ hd.neutral
    rcases ht with ht | ht
    · simp [Reading.kind_of_isType ht]
    · simp [ht]
  | finalDeclaration hf htext => exact absurd htext (hfinal _ List.mem_cons_self hf)
  | assignment ha => exact ha.neutral
  | update hu hs => exact hu.neutral.append (.sign hs (by decide) .nil)
  | expression he hs | call he hs => exact he.neutral.append (.sign hs (by decide) .nil)
  | ifOnly hk he _ ih | whileLoop hk he _ ih =>
    exact .sign hk hkeyword (he.neutral.append (ih fun t ht => hfinal t (by simp [ht])))
  | ifElse hk he _ hk' _ ih ih' =>
    have hfirst := ih fun t ht => hfinal t (by simp [ht])
    have hsecond := ih' fun t ht => hfinal t (by simp [ht])
    exact .sign hk hkeyword ((he.neutral.append hfirst).append (.sign hk' hkeyword hsecond))
  | doWhileLoop hk _ hk' he hc ih =>
    have hbody := ih fun t ht => hfinal t (by simp [ht])
    refine .append (.sign hk hkeyword (hbody.append (.sign hk' hkeyword he.neutral))) ?_
    exact .sign hc (by decide) .nil
  | forLoop hk ha hinit htest hstep _ ih =>
    obtain ⟨v, b, rfl, hv, hb⟩ := hstep.exists_neutral
    have hhead := Neutral.enclose .paren ha ((hinit.neutral.append htest.neutral).append hv) hb
    have hbody := ih fun t ht => hfinal t (by simp [ht])
    have hloop := Neutral.sign hk hkeyword (hhead.append hbody)
    simpa using hloop
  | nil => exact .nil
  | cons _ _ ihs ihss =>
    exact (ihs fun t ht => hfinal t (by simp [ht])).append
      (ihss fun t ht => hfinal t (by simp [ht]))

/-! ## Programs -/

theorem Token.neutral_of_modifiers {mods : List Token} (h : ∀ t ∈ mods, t.isModifier = true) :
    Neutral mods := by
  induction mods with
  | nil => exact .nil
  | cons t mods ih =>
    refine .cons ?_ (ih fun u hu => h u (List.mem_cons_of_mem t hu))
    have ht := h t List.mem_cons_self
    simp only [isModifier, Bool.and_eq_true, Bool.or_eq_true, beq_iff_eq] at ht
    rcases ht.1 with ht | ht <;> simp [ht]

/-- The tokens between `before` and `behind` stand in round brackets. -/
def Token.InParens (before behind : List Token) : Prop :=
  (∃ a ∈ before.getLast?, Pattern.openParen.fits a = true) ∧
    ∃ b ∈ behind.head?, Pattern.closeParen.fits b = true

theorem Token.InParens.extend {before behind : List Token} (h : InParens before behind)
    (front back : List Token) : InParens (front ++ before) (behind ++ back) := by
  obtain ⟨⟨a, hlast, ha⟩, b, hhead, hb⟩ := h
  refine ⟨⟨a, ?_, ha⟩, b, ?_, hb⟩
  · simp [List.getLast?_append, Option.mem_def.mp hlast]
  · simp [List.head?_append, Option.mem_def.mp hhead]

/-- Around the statements of a program the brackets are nested, too, if the parameters are left
out. -/
theorem Frame.exists_neutral {params front back : List Token} (h : Frame params front back) :
    ∃ before behind, front = before ++ params ++ behind ∧
      (params = [] ∨ Token.InParens before behind) ∧
      ∀ w, Neutral w → Neutral (before ++ behind ++ w ++ back) := by
  induction h with
  | bare => exact ⟨[], [], rfl, .inl rfl, fun w hw => by simpa using hw⟩
  | @method t n a b o c params ht hn ha hb ho hc =>
    refine ⟨[t, n, a], [b, o], by simp, .inr ⟨⟨a, rfl, ha⟩, b, rfl, hb⟩, ?_⟩
    intro w hw
    have hparens := (Neutral.enclose .paren ha .nil hb).append (.enclose .brace ho hw hc)
    have hname : Neutral (n :: _) := .cons (by simp [hn]) hparens
    exact .cons (by rcases ht with ht | ht <;> simp [ht]) hname
  | @inClass k n o c mods params front back hk hn ho hmods _ hc ih =>
    obtain ⟨before, behind, rfl, hparams, hneutral⟩ := ih
    refine ⟨k :: n :: o :: mods ++ before, behind, by simp, ?_, ?_⟩
    · refine hparams.imp_right fun h => ?_
      simpa using h.extend (k :: n :: o :: mods) []
    · intro w hw
      have hinside := (Token.neutral_of_modifiers hmods).append (hneutral w hw)
      have hbraces := Neutral.enclose .brace ho hinside hc
      have hname : Neutral (n :: _) := .cons (by simp [hn]) hbraces
      have hclass := Neutral.sign hk (by simp [Pattern.keyword]) hname
      simpa using hclass

open Reading in
/-- **Nested brackets.**  Take the tokens of a text without a name `final`.  Whatever is read from
them as a statement, a block, an expression or a list of elements, from whichever token on, has its
brackets properly nested.  If the tokens are those of a program, then so has the whole of them
outside the parameters of its method. -/
theorem Program.reads_nested {text : String} {tokens : List Token}
    (htokens : tokenize text = .ok tokens) (hfinal : Token.NoFinal tokens) :
    (∀ ts, ts <:+ tokens →
      (∀ stmt rest, statement ts = .ok (stmt, rest) → ∃ w, ts = w ++ rest ∧ Token.IsNested w) ∧
      (∀ body rest, block ts = .ok (body, rest) → ∃ w, ts = w ++ rest ∧ Token.IsNested w) ∧
      (∀ e rest, expression ts = .ok (e, rest) → ∃ w, ts = w ++ rest ∧ Token.IsNested w) ∧
      ∀ e rest, initializer ts = .ok (e, rest) → ∃ w, ts = w ++ rest ∧ Token.IsNested w) ∧
    ∀ program, ofTokens tokens = .ok program →
      ∃ before behind, tokens = before ++ parameters tokens ++ behind ∧
        (parameters tokens = [] ∨ Token.InParens before behind) ∧
        Token.IsNested (before ++ behind) := by
  have hfaithful := Token.faithful_of_tokenize htokens
  refine ⟨?_, ?_⟩
  · intro ts hts
    have hfaithful : Token.Faithful ts := fun t ht => hfaithful t (hts.subset ht)
    have hfinal : Token.NoFinal ts := hfinal.of_suffix hts
    refine ⟨?_, ?_, ?_, ?_⟩
    · intro stmt rest h
      obtain ⟨w, rfl, hw⟩ := Takes.statement hfaithful stmt rest h
      exact ⟨w, rfl, (hw.neutral fun t ht => hfinal t (by simp [ht])).isNested⟩
    · intro body rest h
      obtain ⟨_, rfl, o, w, c, rfl, ho, hw, hc⟩ :=
        Takes.blockWith (fun _ => Takes.statement) hfaithful body rest h
      have hbody := hw.neutral fun t ht => hfinal t (by simp [ht])
      exact ⟨_, rfl, (Neutral.enclose .brace ho hbody hc).isNested⟩
    · intro e rest h
      obtain ⟨w, rfl, hw⟩ := Takes.expression hfaithful e rest h
      exact ⟨w, rfl, hw.neutral.isNested⟩
    · intro e rest h
      obtain ⟨w, rfl, hw⟩ := Takes.initializer hfaithful e rest h
      exact ⟨w, rfl, hw.neutral.isNested⟩
  · intro program hprogram
    obtain ⟨mods, front, w, back, e, rest, hcut, hmods, hframe, hw, he⟩ :=
      exists_frame hfaithful hprogram
    obtain ⟨scanned, hscanned, hnone⟩ := Token.scan_ends htokens
    have hends : Token.EndsOnce tokens := ⟨scanned, _, hscanned, rfl, hnone⟩
    obtain rfl := hends.eq_singleton ⟨mods ++ front ++ w ++ back, hcut.symm⟩ he
    obtain ⟨before, behind, hfront, hparams, hneutral⟩ := hframe.exists_neutral
    have hbody := hw.neutral fun t ht => hfinal t (by simp [hcut, ht])
    have hend : Neutral [e] := .cons (by simp [he]) .nil
    refine ⟨mods ++ before, behind ++ w ++ back ++ [e], ?_, ?_, ?_⟩
    · rw [hfront] at hcut
      simpa using hcut
    · refine hparams.imp_right fun h => ?_
      simpa using h.extend mods (w ++ back ++ [e])
    · have hall := (Token.neutral_of_modifiers hmods).append ((hneutral w hbody).append hend)
      have hnested := hall.isNested
      simpa using hnested

/-- A method with a stray bracket among its parameters. -/
def strayBracket : String :=
  "void f(A] b) \x7b a[g(0)] = b; \x7d"

/-- Its tokens. -/
def strayBracketTokens : List Token :=
  [⟨.keyword, "void", ⟨1, 1⟩⟩, ⟨.identifier, "f", ⟨1, 6⟩⟩, ⟨.paren, "(", ⟨1, 7⟩⟩,
    ⟨.identifier, "A", ⟨1, 8⟩⟩, ⟨.bracket, "]", ⟨1, 9⟩⟩, ⟨.identifier, "b", ⟨1, 11⟩⟩,
    ⟨.paren, ")", ⟨1, 12⟩⟩, ⟨.brace, "\x7b", ⟨1, 14⟩⟩, ⟨.identifier, "a", ⟨1, 16⟩⟩,
    ⟨.bracket, "[", ⟨1, 17⟩⟩, ⟨.identifier, "g", ⟨1, 18⟩⟩, ⟨.paren, "(", ⟨1, 19⟩⟩,
    ⟨.number, "0", ⟨1, 20⟩⟩, ⟨.paren, ")", ⟨1, 21⟩⟩, ⟨.bracket, "]", ⟨1, 22⟩⟩,
    ⟨.operator, "=", ⟨1, 24⟩⟩, ⟨.identifier, "b", ⟨1, 26⟩⟩, ⟨.semicolon, ";", ⟨1, 27⟩⟩,
    ⟨.brace, "\x7d", ⟨1, 29⟩⟩, ⟨.eof, "", ⟨1, 30⟩⟩]

theorem tokenize_strayBracket : tokenize strayBracket = .ok strayBracketTokens :=
  tokenize_of_toOption (by decide +kernel)

/-- The block of the method is nested, and so is the text around the parameters, but the whole of
it is not. -/
theorem Program.reads_nested_strayBracket :
    ¬ Token.IsNested strayBracketTokens ∧
    (∃ program, ofTokens strayBracketTokens = .ok program) ∧
    (∃ before behind, strayBracketTokens = before ++ parameters strayBracketTokens ++ behind ∧
      Token.IsNested (before ++ behind)) ∧
    ∃ body rest, Reading.block (strayBracketTokens.drop 7) = .ok (body, rest) ∧
      ∃ w, strayBracketTokens.drop 7 = w ++ rest ∧ Token.IsNested w := by
  have hfinal : Token.NoFinal strayBracketTokens := by
    unfold Token.NoFinal
    decide
  have hnested := reads_nested tokenize_strayBracket hfinal
  refine ⟨by decide, ⟨_, rfl⟩, ?_, _, _, rfl, ?_⟩
  · obtain ⟨before, behind, hcut, -, houtside⟩ := hnested.2 _ rfl
    exact ⟨before, behind, hcut, houtside⟩
  · exact (hnested.1 _ (List.drop_suffix 7 _)).2.1 _ _ rfl

end Pseudocode
