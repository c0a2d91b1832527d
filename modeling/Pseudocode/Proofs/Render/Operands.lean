import Pseudocode.Proofs.Loop.Headers
import Pseudocode.Proofs.Number.Numeral
import Pseudocode.Proofs.Render.Equals
import Pseudocode.Proofs.Render.Removal
set_option autoImplicit false

/-!
# Calls of methods as operands

A call of a method is never put into brackets, whatever a style makes of it, so its text has to
hold together by itself.  It does: it is a name or a text in brackets with fields, subscripts and
arguments behind it, and whatever stands inside brackets is balanced.

Two sorts of text are no such operands.  A literal and a new array or object keep their form
before a field or a method, without brackets.  And a call that stores an element or that removes
one by its key is written as a sentence.
-/

namespace Pseudocode

/-! ## Balanced texts -/

namespace Text

/-- A bracket, or the mark round a literal. -/
def encloses (c : Char) : Bool :=
  ['(', ')', '[', ']'].contains c || Source.isQuote c

/-- The text has no brackets and no literals. -/
def isPlain (t : String) : Bool :=
  t.toList.all (!encloses ·)

/-- Every bracket of the text that is not inside a literal has its partner, and literals are
complete. -/
inductive Balanced : String → Prop where
  | plain {t : String} (h : isPlain t = true) : Balanced t
  | literal {t : String} (h : Token.isLexeme .string t = true) : Balanced t
  | append {t u : String} (ht : Balanced t) (hu : Balanced u) : Balanced (t ++ u)
  | bracketed {t : String} (h : Balanced t) : Balanced (Text.bracketed t)
  | subscript {t : String} (h : Balanced t) : Balanced (Text.subscript t)

theorem balanced_join {separator : String} (hseparator : Balanced separator) {ts : List String}
    (h : ∀ t ∈ ts, Balanced t) : Balanced (join separator ts) := by
  fun_induction join separator ts with
  | case1 => exact .plain (by decide)
  | case2 t => exact h t List.mem_cons_self
  | case3 t u ts ih =>
    apply ((h t List.mem_cons_self).append hseparator).append
    exact ih fun v hv => h v (List.mem_cons_of_mem t hv)

theorem balanced_listed {ts : List String} (h : ∀ t ∈ ts, Balanced t) : Balanced (join ", " ts) :=
  balanced_join (.plain (by decide)) h

theorem encloses_of_isWordPart {c : Char} (h : Token.isWordPart c = true) :
    encloses c = false := by
  have hword : Token.isWordPart '(' = false ∧ Token.isWordPart ')' = false ∧
      Token.isWordPart '[' = false ∧ Token.isWordPart ']' = false ∧
      Token.isWordPart '"' = false ∧ Token.isWordPart '\'' = false := by decide
  simp only [encloses, Source.isQuote]
  grind

theorem isPlain_iff {t : String} : isPlain t = true ↔ ∀ c ∈ t.toList, encloses c = false := by
  simp [isPlain]

theorem isPlain_of_name {n : String} (h : Token.isLexeme .identifier n = true) :
    isPlain n = true :=
  isPlain_iff.mpr fun c hc => encloses_of_isWordPart (Token.isWordPart_of_mem h c hc)

theorem isPlain_of_number {raw : String} (h : Token.isLexeme .number raw = true) :
    isPlain raw = true := by
  have hdigit : ∀ c : Char, c.isDigit = true → encloses c = false := by
    intro c hc
    exact encloses_of_isWordPart (by simp [Token.isWordPart, hc])
  have hpoint : encloses '.' = false := by decide
  obtain ⟨digits, tail, htext, -, hdigits, htail⟩ := Token.number_shape h
  rw [isPlain_iff]
  intro c hc
  rw [htext, List.mem_append] at hc
  rcases hc with hc | hc
  · exact hdigit c (hdigits c hc)
  rcases htail with rfl | ⟨more, rfl, hmore⟩
  · cases hc
  rcases List.mem_cons.mp hc with rfl | hc
  · exact hpoint
  · exact hdigit c (hmore c hc)

end Text

open Text (Balanced isPlain)

namespace Style

variable {style : Style}

theorem isPlain_of_mem_words (h : style ∈ catalogue) :
    ∀ word ∈ style.words, isPlain word = true := by
  have hall : ∀ style ∈ catalogue, ∀ word ∈ style.words, isPlain word = true := by decide +kernel
  exact hall style h

/-- Words make up balanced texts. -/
theorem Composed.balanced (hs : style ∈ catalogue) {t : String} (h : style.Composed t) :
    Balanced t := by
  have hshared : ∀ t ∈ sharedWords, isPlain t = true := by decide
  have hgaps : ∀ gap ∈ gaps, isPlain gap = true := by decide
  have hnone : Balanced "" := .plain (by decide)
  induction h with
  | own h => exact .plain (isPlain_of_mem_words hs _ h)
  | shared h => exact .plain (hshared _ h)
  | @lexeme kind t hkind h =>
    simp only [List.mem_cons, List.not_mem_nil, or_false] at hkind
    rcases hkind with rfl | rfl | rfl
    · exact .plain (Text.isPlain_of_name h)
    · exact .plain (Text.isPlain_of_number h)
    · exact .literal h
  | append _ _ iht ihu => exact iht.append ihu
  | between _ hgap _ iht ihu => exact (iht.append (.plain (hgaps _ hgap))).append ihu
  | bracketed _ ih => exact ih.bracketed
  | subscript _ ih => exact ih.subscript
  | noArguments => exact hnone.bracketed
  | noElements => exact hnone.subscript

/-- A name that a rule gives to a call is a name of the language. -/
theorem isLexeme_newName (h : style ∈ catalogue) {method : String} {arity : Nat}
    {rule : MethodRule} (hrule : style.methodRule? method arity = some rule) {name : String}
    (hname : rule.newName? = some name) : Token.isLexeme .identifier name = true := by
  have hall : ∀ style ∈ catalogue, ∀ name ∈ style.methods.entries.filterMap (·.2.newName?),
      Token.isLexeme .identifier name = true := by decide +kernel
  obtain ⟨key, hentry, -⟩ := exists_entry_of_methodRule? hrule
  exact hall style h name (List.mem_filterMap.mpr ⟨(key, rule), hentry, hname⟩)

/-- The call is written as that of a function, with the receiver in its brackets. -/
def callsByName (style : Style) (method : String) (arity : Nat) : Bool :=
  (style.methodRule? method arity).any fun rule =>
    decide (rule.form = .length ∨ rule.form = .function)

end Style

/-! ## What becomes of a call -/

namespace Setting

variable {s : Setting}

/-- The texts that a call of a method can have, from those of its receiver and arguments: a
call, an element, a call of a function, and two sentences. -/
inductive CallText (s : Setting) (receiver : Expr) (text n : String) (args : List String) :
    String → Prop where
  | call {name : String} (hcalls : s.style.callsByName n args.length = false)
    (hname : Token.isLexeme .identifier name = true) :
    CallText s receiver text n args (plainCall text name args)
  | element {key : String} (hcalls : s.style.callsByName n args.length = false)
    (hkey : key ∈ args) :
    CallText s receiver text n args (text ++ Text.subscript key)
  | function {name : String} {inputs : List String}
    (hcalls : s.style.callsByName n args.length = true)
    (hname : Token.isLexeme .identifier name = true) (hinputs : inputs ⊆ text :: args) :
    CallText s receiver text n args (name ++ Text.bracketed (Text.join ", " inputs))
  | store {rule : MethodRule} {key value : String}
    (hrule : s.style.methodRule? n args.length = some rule) (hform : rule.form = .subscriptWrite)
    (hkey : key ∈ args) (hvalue : value ∈ args) :
    CallText s receiver text n args (text ++ Text.subscript key ++ " = " ++ value)
  | removal {rule : MethodRule} {key : String}
    (hrule : s.style.methodRule? n args.length = some rule) (hform : rule.form = .remove)
    (hargs : args = [key]) (hkeyed : s.isKeyed receiver text = true) :
    CallText s receiver text n args ("remove " ++ text ++ Text.subscript key)

theorem methodText_callText (hs : s.style ∈ Style.catalogue) (receiver : Expr) {n : String}
    (hn : Token.isLexeme .identifier n = true) (text : String) (args : List String) :
    Ensures (s.CallText receiver text n args) (s.methodText receiver text n args) := by
  unfold methodText
  split
  · rename_i hnone
    exact .ok (.call (by simp [Style.callsByName, hnone]) hn)
  rename_i rule hrule
  have hcalls : s.style.callsByName n args.length =
      decide (rule.form = .length ∨ rule.form = .function) := by
    rw [Style.callsByName, hrule, Option.any_some]
  split
  · rename_i hform
    exact .ok (.call (by simp [hcalls, hform]) hn)
  · rename_i hform
    have hplain : s.style.callsByName n args.length = false := by simp [hcalls, hform]
    cases args with
    | nil => exact .error _
    | cons key args => exact .ok (.element hplain List.mem_cons_self)
  · rename_i hform
    rcases args with - | ⟨key, - | ⟨value, args⟩⟩
    · exact .error _
    · exact .error _
    · exact .ok (.store hrule hform (by simp) (by simp))
  · rename_i hform
    have hname := Style.isLexeme_newName hs hrule
      (show rule.newName? = some rule.name by simp [MethodRule.newName?, hform])
    exact .ok (.call (by simp [hcalls, hform]) hname)
  · rename_i hform
    have hlength : Token.isLexeme .identifier "length" = true := by decide +kernel
    have hcall : s.CallText receiver text n args
        ("length" ++ Text.bracketed (Text.join ", " [text])) :=
      .function (by simp [hcalls, hform]) hlength (by simp)
    exact .ok hcall
  · rename_i hform
    have hname := Style.isLexeme_newName hs hrule
      (show rule.newName? = some rule.name by simp [MethodRule.newName?, hform])
    exact .ok (.function (by simp [hcalls, hform]) hname (List.Subset.refl _))
  · rename_i hform
    have hitem : Token.isLexeme .identifier "removeItemAt" = true := by decide +kernel
    have hplain : s.CallText receiver text n args (plainCall text "removeItemAt" args) :=
      .call (by simp [hcalls, hform]) hitem
    split
    · split
      · rename_i hkeyed
        exact .ok (.removal hrule hform rfl hkeyed)
      · exact .ok hplain
    · exact .ok hplain
  · exact .error _

/-! ## Texts of expressions are balanced -/

/-- The text of an expression that was read is balanced, wherever it stands. -/
theorem render_balanced (hs : s.style ∈ Style.catalogue) {e : Expr} (he : e.WellFormed .lexical)
    (slot : Slot) : Ensures Balanced (s.render slot e) :=
  (render_composed he slot).mono fun _ h => h.balanced hs

theorem renderAll_balanced (hs : s.style ∈ Style.catalogue) {es : List Expr}
    (hes : Expr.AllWellFormed .lexical es) :
    Ensures (fun texts => texts.length = es.length ∧ ∀ t ∈ texts, Balanced t) (s.renderAll es) :=
  renderAll_ensures fun e he => render_balanced hs (Expr.allWellFormed_iff.mp hes e he) .whole

end Setting

/-! ## Operands -/

namespace Text

/-- Texts that start with a head, with fields, subscripts and arguments behind it. -/
inductive Suffixed (Head : String → Prop) : String → Prop where
  | head {t : String} (h : Head t) : Suffixed Head t
  | field {t n : String} (ht : Suffixed Head t) (hn : Token.isLexeme .identifier n = true) :
    Suffixed Head (t ++ "." ++ n)
  | subscript {t key : String} (ht : Suffixed Head t) (hkey : Balanced key) :
    Suffixed Head (t ++ Text.subscript key)
  | arguments {t args : String} (ht : Suffixed Head t) (hargs : Balanced args) :
    Suffixed Head (t ++ Text.bracketed args)

/-- A name, or a text in brackets. -/
inductive IsHead : String → Prop where
  | name {n : String} (h : Token.isLexeme .identifier n = true) : IsHead n
  | bracketed {t : String} (h : Balanced t) : IsHead (Text.bracketed t)

/-- A name or a text in brackets, with fields, subscripts and arguments behind it. -/
abbrev IsOperand : String → Prop :=
  Suffixed IsHead

namespace Suffixed

variable {Head Head' : String → Prop} {t : String}

theorem mono (h : ∀ t, Head t → Head' t) (ht : Suffixed Head t) : Suffixed Head' t := by
  induction ht with
  | head ht => exact .head (h _ ht)
  | field _ hn ih => exact ih.field hn
  | subscript _ hkey ih => exact ih.subscript hkey
  | arguments _ hargs ih => exact ih.arguments hargs

theorem subscripts (ht : Suffixed Head t) {keys : List String} (h : ∀ key ∈ keys, Balanced key) :
    Suffixed Head (t ++ concat (keys.map Text.subscript)) := by
  induction keys generalizing t with
  | nil => simpa [concat] using ht
  | cons key keys ih =>
    obtain ⟨hkey, hkeys⟩ := List.forall_mem_cons.mp h
    have hrest := ih (ht.subscript hkey) hkeys
    rwa [String.append_assoc] at hrest

end Suffixed

/-- A sign that a field, a subscript or arguments start with. -/
def opensSuffix (c : Char) : Bool :=
  ['.', '(', '['].contains c

/-- What stands behind the word at the start of a text, if there is one, opens a suffix. -/
def headEnds (t : String) : Bool :=
  (t.toList.dropWhile Token.isWordPart).head?.all opensSuffix

theorem headEnds_append {t u : String} {c : Char} {cs : List Char} (ht : headEnds t = true)
    (hu : u.toList = c :: cs) (hc : opensSuffix c = true) : headEnds (t ++ u) = true := by
  have hmarks : ['.', '(', '['].all (!Token.isWordPart ·) = true := by decide
  have hword : (!Token.isWordPart c) = true :=
    List.all_eq_true.mp hmarks c (List.contains_iff_mem.mp hc)
  rw [headEnds] at ht ⊢
  rw [String.toList_append, List.dropWhile_append, hu]
  cases hrest : t.toList.dropWhile Token.isWordPart with
  | nil =>
    rw [List.isEmpty_nil, if_pos rfl, List.dropWhile_cons_of_neg (by simpa using hword)]
    exact hc
  | cons d ds =>
    rw [hrest] at ht
    exact ht

theorem IsOperand.headEnds {t : String} (h : IsOperand t) : headEnds t = true := by
  induction h with
  | head h =>
    cases h with
    | name h =>
      rw [Text.headEnds, List.dropWhile_eq_nil_iff.mpr (Token.isWordPart_of_mem h)]
      rfl
    | bracketed h =>
      rw [Text.headEnds, Text.bracketed, String.toList_append, String.toList_append]
      rfl
  | @field t n ht hn ih =>
    have hdot : ("." ++ n).toList = '.' :: n.toList := by simp
    rw [String.append_assoc]
    exact headEnds_append ih hdot (by decide)
  | @subscript t key ht hkey ih =>
    have hbracket : (Text.subscript key).toList = '[' :: (key.toList ++ [']']) := by
      simp [Text.subscript]
    exact headEnds_append ih hbracket (by decide)
  | @arguments t args ht hargs ih =>
    have hbracket : (Text.bracketed args).toList = '(' :: (args.toList ++ [')']) := by
      simp [Text.bracketed]
    exact headEnds_append ih hbracket (by decide)

end Text

open Text (Suffixed IsHead IsOperand)

/-- What is written without brackets before a field or a method and is no name: a literal, or a
new array or object. -/
def Expr.isBare : Expr → Bool
  | .literal .. | .arrayLiteral .. | .newArray .. | .newObject .. => true
  | _ => false

namespace Style

/-- The texts that such an expression starts with. -/
inductive BareHead (style : Style) : String → Prop where
  | literal {raw : String} (h : Vocabulary.lexical.IsLiteral raw) :
    BareHead style (style.literal raw)
  | elements {t : String} (h : Balanced t) : BareHead style (Text.subscript t)
  | fresh {n : String} (h : Token.isLexeme .identifier n = true) : BareHead style ("new " ++ n)

/-- The expression and the parts of it that its text starts with, from the outside in. -/
def chain (style : Style) : Expr → List Expr
  | .index p base indices => .index p base indices :: style.chain base
  | .property p receiver n => .property p receiver n :: style.chain receiver
  | .methodCall p receiver n args =>
    .methodCall p receiver n args ::
      if style.callsByName n args.length then [] else style.chain receiver
  | e => [e]

/-- The head of a chain with the given parts. -/
def ChainHead (style : Style) (parts : List Expr) (t : String) : Prop :=
  IsHead t ∨ (∃ d ∈ parts, d.isBare = true) ∧ style.BareHead t

theorem ChainHead.mono {style : Style} {parts parts' : List Expr} (h : parts ⊆ parts') (t : String)
    (ht : style.ChainHead parts t) : style.ChainHead parts' t := by
  rcases ht with ht | ⟨⟨d, hd, hbare⟩, ht⟩
  · exact .inl ht
  · exact .inr ⟨⟨d, h hd, hbare⟩, ht⟩

end Style

namespace Setting

variable {s : Setting}

/-- The call is written as a sentence: it stores an element, or it removes one by its key. -/
def WritesSentence (s : Setting) : Expr → Prop
  | .methodCall _ receiver n args =>
    ∃ rule, s.style.methodRule? n args.length = some rule ∧
      (rule.form = .subscriptWrite ∨
        rule.form = .remove ∧ args.length = 1 ∧
          ∃ text, s.render .receiver receiver = .ok text ∧ s.isKeyed receiver text = true)
  | _ => False

theorem CallText.suffixed {p : Pos} {receiver : Expr} {text n written : String}
    {args : List Expr} {texts : List String} (h : s.CallText receiver text n texts written)
    (hreceiver : s.render .receiver receiver = .ok text) (hlength : texts.length = args.length)
    (hbalanced : Balanced text) (htexts : ∀ t ∈ texts, Balanced t)
    (hsentence : ¬ s.WritesSentence (.methodCall p receiver n args)) {Head : String → Prop}
    (hhead : ∀ t, IsHead t → Head t)
    (htext : s.style.callsByName n args.length = false → Suffixed Head text) :
    Suffixed Head written := by
  cases h with
  | call hcalls hname =>
    have htext := htext (hlength ▸ hcalls)
    exact (htext.field hname).arguments (Text.balanced_listed htexts)
  | element hcalls hkey => exact (htext (hlength ▸ hcalls)).subscript (htexts _ hkey)
  | function hcalls hname hinputs =>
    have hinputs : ∀ t ∈ _, Balanced t := fun t ht =>
      List.forall_mem_cons.mpr ⟨hbalanced, htexts⟩ t (hinputs ht)
    have hname : Suffixed Head _ := .head (hhead _ (.name hname))
    exact hname.arguments (Text.balanced_listed hinputs)
  | @store rule key value hrule hform hkey hvalue =>
    exact absurd ⟨rule, hlength ▸ hrule, .inl hform⟩ hsentence
  | @removal rule key hrule hform hone hkeyed =>
    have hargs : args.length = 1 := by rw [← hlength, hone, List.length_singleton]
    exact absurd ⟨rule, hlength ▸ hrule, .inr ⟨hform, hargs, text, hreceiver, hkeyed⟩⟩ hsentence

/-- What goes into brackets before a field, a method or a subscript is an operand by that. -/
theorem receiver_bracketed (hs : s.style ∈ Style.catalogue) {e : Expr} (he : e.WellFormed .lexical)
    (hwraps : s.style.wraps .receiver e = true) :
    Ensures IsOperand (s.render .receiver e) := by
  intro text htext
  rw [render_eq_place s (show Slot.receiver.continues e = false by cases e <;> rfl)] at htext
  cases hwritten : s.render .whole e with
  | error _ =>
    rw [hwritten] at htext
    cases htext
  | ok written =>
    rw [hwritten] at htext
    obtain rfl := Except.ok.inj htext
    rw [Style.place, if_pos hwraps]
    exact .head (.bracketed (render_balanced hs he .whole written hwritten))

/-- Before a field, a method or a subscript, an expression is written as an operand, unless its
text starts with a literal or with a new array or object. -/
theorem receiver_suffixed (hs : s.style ∈ Style.catalogue) {e : Expr} (he : e.WellFormed .lexical)
    (hsentence : ∀ d ∈ s.style.chain e, ¬ s.WritesSentence d) :
    Ensures (Suffixed (s.style.ChainHead (s.style.chain e))) (s.render .receiver e) := by
  have hname : ∀ {n : String}, Vocabulary.lexical .identifier n →
      Token.isLexeme .identifier n = true :=
    fun h => Vocabulary.isLexeme_of_lexical h (by decide)
  induction e with
  | name p n => exact .ok (.head (.inl (.name (hname he))))
  | literal p raw =>
    exact .ok (.head (.inr ⟨⟨_, List.mem_cons_self, rfl⟩, .literal he⟩))
  | index p base indices ihbase ihindices =>
    obtain ⟨hbase, -, hindices⟩ := he
    rw [render_index]
    refine (renderAll_balanced hs hindices).bind ?_
    rintro keys ⟨-, hkeys⟩
    refine (ihbase hbase fun d hd => hsentence d (List.mem_cons_of_mem _ hd)).bind ?_
    intro text htext
    exact .ok ((htext.mono (Style.ChainHead.mono (List.subset_cons_self _ _))).subscripts hkeys)
  | call p n args ih =>
    obtain ⟨hn, hargs⟩ := he
    rw [render_call]
    refine (renderAll_balanced hs hargs).bind ?_
    rintro texts ⟨-, htexts⟩
    have hhead : Suffixed (s.style.ChainHead [Expr.call p n args]) n :=
      .head (.inl (.name (hname hn)))
    exact .ok (hhead.arguments (Text.balanced_listed htexts))
  | methodCall p receiver n args ihreceiver ihargs =>
    obtain ⟨hreceiver, hn, hargs⟩ := he
    rw [render_methodCall]
    intro written hwritten
    obtain ⟨text, htext, hwritten⟩ := exists_of_bind hwritten
    obtain ⟨texts, htexts, hwritten⟩ := exists_of_bind hwritten
    obtain ⟨hlength, hbalanced⟩ := renderAll_balanced hs hargs texts htexts
    have hcall := methodText_callText hs receiver (hname hn) text texts written hwritten
    refine hcall.suffixed htext hlength (render_balanced hs hreceiver .receiver text htext)
      hbalanced (hsentence _ List.mem_cons_self) (fun _ => .inl) ?_
    intro hcalls
    have hchain : s.style.chain (.methodCall p receiver n args) =
        .methodCall p receiver n args :: s.style.chain receiver := by
      rw [Style.chain, hcalls, if_neg Bool.false_ne_true]
    rw [hchain] at hsentence ⊢
    have hparts := ihreceiver hreceiver fun d hd => hsentence d (List.mem_cons_of_mem _ hd)
    exact (hparts text htext).mono (Style.ChainHead.mono (List.subset_cons_self _ _))
  | property p receiver n ih =>
    obtain ⟨hreceiver, hn, -⟩ := he
    refine (ih hreceiver fun d hd => hsentence d (List.mem_cons_of_mem _ hd)).bind ?_
    intro text htext
    exact .ok ((htext.mono (Style.ChainHead.mono (List.subset_cons_self _ _))).field (hname hn))
  | length p operand ih =>
    have hoperand : operand.WellFormed .lexical := he
    refine (render_balanced hs hoperand .whole).bind ?_
    intro text htext
    have hlength : Token.isLexeme .identifier "length" = true := by decide +kernel
    have hhead : Suffixed (s.style.ChainHead [Expr.length p operand]) "length" :=
      .head (.inl (.name hlength))
    exact .ok (hhead.arguments htext)
  | newArray p elementType dims ih =>
    refine (renderAll_balanced hs he.2.2).bind ?_
    rintro keys ⟨-, hkeys⟩
    have harray : Token.isLexeme .identifier "array" = true := by decide +kernel
    have hhead : Suffixed (s.style.ChainHead [Expr.newArray p elementType dims]) "new array" :=
      .head (.inr ⟨⟨_, List.mem_cons_self, rfl⟩, .fresh harray⟩)
    exact .ok (hhead.subscripts hkeys)
  | arrayLiteral p elements ih =>
    refine (renderAll_balanced hs he).bind ?_
    rintro texts ⟨-, htexts⟩
    have hbare : s.style.BareHead _ := .elements (Text.balanced_listed htexts)
    exact .ok (.head (.inr ⟨⟨_, List.mem_cons_self, rfl⟩, hbare⟩))
  | newObject p typeName args ih =>
    obtain ⟨htype, hargs⟩ := he
    refine (renderAll_balanced hs hargs).bind ?_
    rintro texts ⟨-, htexts⟩
    have hhead : Suffixed (s.style.ChainHead [Expr.newObject p typeName args])
        ("new " ++ typeName) :=
      .head (.inr ⟨⟨_, List.mem_cons_self, rfl⟩, .fresh (hname htype)⟩)
    exact .ok (hhead.arguments (Text.balanced_listed htexts))
  | unary | update | binary | assign =>
    exact (receiver_bracketed hs he rfl).mono fun _ h => h.mono fun _ => .inl
  | unsupported p kind => exact he.elim

end Setting

/-! ## Programs -/

/-- What holds of an expression whenever it holds of all that it is made of holds of every
expression. -/
theorem Expr.induct_children {motive : Expr → Prop}
    (step : ∀ e : Expr, (∀ c ∈ e.children, motive c) → motive e) (e : Expr) : motive e := by
  induction e with
  | name p n => exact step (.name p n) (by simp [children])
  | literal p raw => exact step (.literal p raw) (by simp [children])
  | index p base indices ihbase ihindices =>
    exact step (.index p base indices) (List.forall_mem_cons.mpr ⟨ihbase, ihindices⟩)
  | call p n args ih => exact step (.call p n args) ih
  | methodCall p receiver n args ihreceiver ihargs =>
    exact step (.methodCall p receiver n args) (List.forall_mem_cons.mpr ⟨ihreceiver, ihargs⟩)
  | property p receiver n ih => exact step (.property p receiver n) (by simpa [children])
  | length p operand ih => exact step (.length p operand) (by simpa [children])
  | newArray p elementType dims ih => exact step (.newArray p elementType dims) ih
  | arrayLiteral p elements ih => exact step (.arrayLiteral p elements) ih
  | newObject p typeName args ih => exact step (.newObject p typeName args) ih
  | unary p op operand ih => exact step (.unary p op operand) (by simpa [children])
  | update p op operand ih => exact step (.update p op operand) (by simpa [children])
  | binary p op l r ihl ihr =>
    exact step (.binary p op l r) (by simpa [children] using ⟨ihl, ihr⟩)
  | assign p target op value iht ihv =>
    exact step (.assign p target op value) (by simpa [children] using ⟨iht, ihv⟩)
  | unsupported p kind => exact step (.unsupported p kind) (by simp [children])

/-- The expressions inside a well-formed one are well formed. -/
theorem Expr.WellFormed.of_mem_parts {V : Vocabulary} {e d : Expr} (he : e.WellFormed V)
    (hd : d ∈ e.parts) : d.WellFormed V := by
  induction e using Expr.induct_children with
  | step e ih =>
    rw [parts_eq] at hd
    rcases List.mem_cons.mp hd with rfl | hd
    · exact he
    · obtain ⟨c, hc, hd⟩ := List.mem_flatMap.mp hd
      exact ih c hc (he.of_mem_children hc) hd

theorem ForInit.WellFormed.of_mem_operands {V : Vocabulary} {i : ForInit} {e : Expr}
    (hi : i.WellFormed V) (he : e ∈ i.operands) : e.WellFormed V := by
  cases i with
  | declaration d => exact hi.1.2.2 e (Option.mem_toList.mp he)
  | assignment a =>
    obtain ⟨-, htarget, -, hvalue⟩ := hi
    rcases List.mem_pair.mp he with rfl | rfl
    · exact htarget
    · exact hvalue
  | unsupported kind => exact hi.elim

theorem Stmt.WellFormed.of_mem_operands {V : Vocabulary} {stmt : Stmt} {e : Expr}
    (hstmt : stmt.WellFormed V) (he : e ∈ stmt.operands) : e.WellFormed V := by
  cases stmt with
  | declaration d => exact hstmt.2.2 e (Option.mem_toList.mp he)
  | assignment a =>
    obtain ⟨-, htarget, -, hvalue⟩ := hstmt
    rcases List.mem_pair.mp he with rfl | rfl
    · exact htarget
    · exact hvalue
  | update u =>
    obtain rfl := List.mem_singleton.mp he
    exact hstmt.2.1
  | expression p d | call p d =>
    obtain rfl := List.mem_singleton.mp he
    exact hstmt
  | ifElse p test consequent alternate | whileLoop p test body =>
    obtain rfl := List.mem_singleton.mp he
    exact hstmt.1
  | doWhileLoop p body test =>
    obtain rfl := List.mem_singleton.mp he
    exact hstmt.2
  | forLoop p init test update body =>
    obtain ⟨hinit, htest, hupdate, -⟩ := hstmt
    rcases List.mem_append.mp he with he | he
    · rcases List.mem_append.mp he with he | he
      · obtain ⟨i, hi, he⟩ := List.mem_flatMap.mp he
        exact (hinit i (Option.mem_toList.mp hi)).of_mem_operands he
      · exact htest e (Option.mem_toList.mp he)
    · obtain ⟨u, hu, he⟩ := List.mem_flatMap.mp he
      exact (hupdate u (Option.mem_toList.mp hu)).of_mem_operands he
  | block p body => cases he
  | unsupported kind => cases he

/-- The expressions of a program that was read are well formed. -/
theorem Program.IsRead.wellFormed {program : Program} (h : program.IsRead) {e : Expr}
    (he : e ∈ program.exprs) : e.WellFormed .lexical := by
  obtain ⟨text, tokens, htokens, hprogram⟩ := h
  have hwell := wellFormed_of_admits (Token.scan_admits htokens) hprogram
  obtain ⟨stmt, hstmt, he⟩ := List.mem_flatMap.mp he
  obtain ⟨part, hpart, he⟩ := List.mem_flatMap.mp he
  obtain ⟨operand, hoperand, he⟩ := List.mem_flatMap.mp he
  exact (((hwell stmt hstmt).of_mem_parts hpart).of_mem_operands hoperand).of_mem_parts he

/-- A call of a method. -/
def Expr.isMethodCall : Expr → Bool
  | .methodCall .. => true
  | _ => false

namespace Setting

variable {s : Setting}

/-- **Calls as operands.**  In every style, a call of a method in a program that was read has one
and the same text wherever it stands, and it stands so in the text of the expression around it and
in the line of a declaration.  The text is an operand, a name or a text in brackets with fields,
subscripts and arguments behind it; only where it starts with a literal or with a new array or
object, the operand starts with that instead.  Left out are calls whose text starts with that of a
call that is written as a sentence. -/
theorem methodCall_stays_operand (hs : s.style ∈ Style.catalogue) {program : Program}
    (hprogram : program.IsRead) {c : Expr} (hc : c ∈ program.exprs) (hcall : c.isMethodCall = true)
    (hsentence : ∀ d ∈ s.style.chain c, ¬ s.WritesSentence d) :
    ∃ t, (∀ slot, s.render slot c = .ok t) ∧
      ((∀ d ∈ s.style.chain c, d.isBare = false) → IsOperand t) ∧
      Suffixed (s.style.ChainHead (s.style.chain c)) t ∧
      (∀ e : Expr, e.WellFormed .lexical → c ∈ e.shownChildren → ∀ slot text,
        s.render slot e = .ok text → Text.Stands t text) ∧
      ∀ (d : Declaration) (page : Page), d.value = some c → c.isInputCall = false →
        d.typeName ∉ deviceTypes → (page.declare d.name d.typeName).setting s.style = s →
        d.emit s.style page =
          .ok ((page.declare d.name d.typeName).write (d.name ++ " = " ++ t)) := by
  have hwell := hprogram.wellFormed hc
  obtain ⟨t, ht⟩ := render_yields (Style.isSound_of_mem hs) hwell .receiver
  have hslot : ∀ slot, s.render slot c = .ok t := by
    intro slot
    cases c with
    | methodCall p receiver n args => exact ht
    | _ => cases hcall
  have hsuffixed := receiver_suffixed hs hwell hsentence t ht
  refine ⟨t, hslot, ?_, hsuffixed, ?_, ?_⟩
  · intro hbare
    refine hsuffixed.mono fun head hhead => ?_
    rcases hhead with hhead | ⟨⟨d, hd, hd'⟩, -⟩
    · exact hhead
    · rw [hbare d hd] at hd'
      cases hd'
  · intro e he hchild slot text htext
    obtain ⟨slot', u, hu, hstands⟩ := exists_stands_of_mem_shownChildren hs he htext hchild
    obtain rfl := Except.ok.inj ((hslot slot').symm.trans hu)
    exact hstands
  · intro d page hvalue hinput hdevice hsetting
    have hcontains : deviceTypes.contains d.typeName = false := by simpa using hdevice
    rw [Declaration.emit, hcontains, hvalue, if_neg Bool.false_ne_true]
    dsimp only
    rw [hinput, if_neg Bool.false_ne_true, hsetting, hslot .value]
    rfl

/-- No rule of the style makes a sentence of the call. -/
theorem not_writesSentence {p : Pos} {receiver : Expr} {n : String} {args : List Expr}
    (h : (s.style.methodRule? n args.length).all
      (fun rule => rule.form != .subscriptWrite && rule.form != .remove) = true) :
    ¬ s.WritesSentence (.methodCall p receiver n args) := by
  rintro ⟨rule, hrule, hform⟩
  rw [hrule] at h
  rcases hform with hform | ⟨hform, -⟩ <;> simp [hform] at h

/-- An element of a sum, with a call behind it. -/
def sumElementSource : String :=
  "x = (b + c).get(i).f() * 2;"

def sumElementTokens : List Token :=
  [⟨.identifier, "x", ⟨1, 1⟩⟩, ⟨.operator, "=", ⟨1, 3⟩⟩, ⟨.paren, "(", ⟨1, 5⟩⟩,
    ⟨.identifier, "b", ⟨1, 6⟩⟩, ⟨.operator, "+", ⟨1, 8⟩⟩, ⟨.identifier, "c", ⟨1, 10⟩⟩,
    ⟨.paren, ")", ⟨1, 11⟩⟩, ⟨.dot, ".", ⟨1, 12⟩⟩, ⟨.identifier, "get", ⟨1, 13⟩⟩,
    ⟨.paren, "(", ⟨1, 16⟩⟩, ⟨.identifier, "i", ⟨1, 17⟩⟩, ⟨.paren, ")", ⟨1, 18⟩⟩,
    ⟨.dot, ".", ⟨1, 19⟩⟩, ⟨.identifier, "f", ⟨1, 20⟩⟩, ⟨.paren, "(", ⟨1, 21⟩⟩,
    ⟨.paren, ")", ⟨1, 22⟩⟩, ⟨.operator, "*", ⟨1, 24⟩⟩, ⟨.number, "2", ⟨1, 26⟩⟩,
    ⟨.semicolon, ";", ⟨1, 27⟩⟩, ⟨.eof, "", ⟨1, 28⟩⟩]

/-- The element. -/
def sumElement : Expr :=
  .methodCall ⟨1, 6⟩ (.binary ⟨1, 6⟩ .add (.name ⟨1, 6⟩ "b") (.name ⟨1, 10⟩ "c")) "get"
    [.name ⟨1, 17⟩ "i"]

/-- The call behind it. -/
def sumElementCall : Expr :=
  .methodCall ⟨1, 6⟩ sumElement "f" []

def sumElementProgram : Program :=
  ⟨⟨1, 1⟩, [.assignment ⟨⟨1, 1⟩, .name ⟨1, 1⟩ "x", .set,
    .binary ⟨1, 6⟩ .mul sumElementCall (.literal ⟨1, 26⟩ "2")⟩]⟩

/-- The style with subscripts for elements of collections. -/
def collecting : Setting :=
  ⟨.looping "sc-06" false Style.collectionMethods, .empty⟩

theorem methodCall_stays_operand_sumElement :
    collecting.style ∈ Style.catalogue ∧ sumElementProgram.IsRead ∧
      sumElementCall ∈ sumElementProgram.exprs ∧
      collecting.render (.left .mul) sumElementCall = .ok "(b + c)[i].f()" ∧
      IsOperand "(b + c)[i].f()" := by
  have hstyle : collecting.style ∈ Style.catalogue := by decide
  have hread : sumElementProgram.IsRead :=
    ⟨sumElementSource, sumElementTokens, by decide +kernel, rfl⟩
  have hmem : sumElementCall ∈ sumElementProgram.exprs := by
    change sumElementCall ∈ [_, _, sumElementCall, _, _, _, _, _, _]
    simp
  have htext : collecting.render (.left .mul) sumElementCall = .ok "(b + c)[i].f()" := by decide
  have hchain : collecting.style.chain sumElementCall = [sumElementCall, sumElement,
      .binary ⟨1, 6⟩ .add (.name ⟨1, 6⟩ "b") (.name ⟨1, 10⟩ "c")] := rfl
  have hsentence : ∀ d ∈ collecting.style.chain sumElementCall, ¬ collecting.WritesSentence d := by
    rw [hchain]
    simp only [List.forall_mem_cons]
    exact ⟨not_writesSentence (by decide), not_writesSentence (by decide), id, by simp⟩
  obtain ⟨t, hslot, hoperand, -⟩ := methodCall_stays_operand hstyle hread hmem rfl hsentence
  obtain rfl : "(b + c)[i].f()" = t := Except.ok.inj (htext.symm.trans (hslot (.left .mul)))
  refine ⟨hstyle, hread, hmem, htext, hoperand ?_⟩
  rw [hchain]
  decide

/-- An element of a new object. -/
def freshElementSource : String :=
  "x = (new Box()).get(0) + 1;"

def freshElementTokens : List Token :=
  [⟨.identifier, "x", ⟨1, 1⟩⟩, ⟨.operator, "=", ⟨1, 3⟩⟩, ⟨.paren, "(", ⟨1, 5⟩⟩,
    ⟨.keyword, "new", ⟨1, 6⟩⟩, ⟨.identifier, "Box", ⟨1, 10⟩⟩, ⟨.paren, "(", ⟨1, 13⟩⟩,
    ⟨.paren, ")", ⟨1, 14⟩⟩, ⟨.paren, ")", ⟨1, 15⟩⟩, ⟨.dot, ".", ⟨1, 16⟩⟩,
    ⟨.identifier, "get", ⟨1, 17⟩⟩, ⟨.paren, "(", ⟨1, 20⟩⟩, ⟨.number, "0", ⟨1, 21⟩⟩,
    ⟨.paren, ")", ⟨1, 22⟩⟩, ⟨.operator, "+", ⟨1, 24⟩⟩, ⟨.number, "1", ⟨1, 26⟩⟩,
    ⟨.semicolon, ";", ⟨1, 27⟩⟩, ⟨.eof, "", ⟨1, 28⟩⟩]

def freshElement : Expr :=
  .methodCall ⟨1, 6⟩ (.newObject ⟨1, 6⟩ "Box" []) "get" [.literal ⟨1, 21⟩ "0"]

/-- The sum that it is an operand of. -/
def freshElementSum : Expr :=
  .binary ⟨1, 6⟩ .add freshElement (.literal ⟨1, 26⟩ "1")

def freshElementProgram : Program :=
  ⟨⟨1, 1⟩, [.assignment ⟨⟨1, 1⟩, .name ⟨1, 1⟩ "x", .set, freshElementSum⟩]⟩

/-- An element of a new object starts with the word `new`, also on one side of an operator, and
it is not in brackets. -/
theorem freshElement_not_operand :
    collecting.style ∈ Style.catalogue ∧ freshElementProgram.IsRead ∧
      freshElementSum ∈ freshElementProgram.exprs ∧
      freshElement ∈ freshElementSum.shownChildren ∧
      collecting.render (.left .add) freshElement = .ok "new Box()[0]" ∧
      ¬ IsOperand "new Box()[0]" ∧ ∀ t, "new Box()[0]" ≠ Text.bracketed t := by
  have hread : freshElementProgram.IsRead :=
    ⟨freshElementSource, freshElementTokens, by decide +kernel, rfl⟩
  refine ⟨by decide, hread, ?_, List.mem_cons_self, by decide, ?_, ?_⟩
  · change freshElementSum ∈ [_, freshElementSum, _, _, _, _]
    simp
  · intro hoperand
    have hends := hoperand.headEnds
    revert hends
    decide
  · intro t ht
    have hhead := congrArg (fun u => u.toList.head?) ht
    simp [Text.bracketed] at hhead

end Setting

end Pseudocode
