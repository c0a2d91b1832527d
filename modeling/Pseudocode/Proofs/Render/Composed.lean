import Pseudocode.Proofs.Render.Total
import Pseudocode.Proofs.Token.Scanning
set_option autoImplicit false

/-!
# Texts composed of words

The text of an expression is composed of words: names, literals, words of the style and a few
that all styles share.  Between two of them there may be a point, a comma, a sign or a blank, and
around them brackets.  So what every word has, and what composing keeps, all texts have.
-/

namespace Pseudocode

/-- Whatever the computation results in has the property. -/
def Ensures {ε α : Type} (P : α → Prop) (x : Except ε α) : Prop :=
  ∀ a, x = .ok a → P a

namespace Ensures

variable {ε α β : Type} {P : α → Prop} {Q : β → Prop}

theorem ok {a : α} (h : P a) : Ensures P (.ok a : Except ε α) := by
  rintro b hb
  obtain rfl := Except.ok.inj hb
  exact h

theorem error (e : ε) : Ensures P (.error e) := by
  rintro a ha
  cases ha

theorem bind {x : Except ε α} {f : α → Except ε β} (hx : Ensures P x)
    (hf : ∀ a, P a → Ensures Q (f a)) : Ensures Q (x >>= f) := by
  cases x with
  | error e => exact error e
  | ok a => exact hf a (hx a rfl)

/-- What goes before need not be known. -/
theorem after {x : Except ε α} {f : α → Except ε β} (h : ∀ a, Ensures Q (f a)) :
    Ensures Q (x >>= f) := by
  cases x with
  | error e => exact error e
  | ok a => exact h a

theorem mono {P' : α → Prop} {x : Except ε α} (hx : Ensures P x) (h : ∀ a, P a → P' a) :
    Ensures P' x :=
  fun a ha => h a (hx a ha)

theorem mapM {f : α → Except ε β} {as : List α} (h : ∀ a ∈ as, Ensures Q (f a)) :
    Ensures (fun bs => ∀ b ∈ bs, Q b) (as.mapM f) := by
  induction as with
  | nil => exact ok (by simp)
  | cons a as ih =>
    rw [List.mapM_cons]
    refine (h a List.mem_cons_self).bind ?_
    intro b hb
    refine (ih fun a' ha' => h a' (List.mem_cons_of_mem a ha')).bind ?_
    intro bs hbs
    exact ok (List.forall_mem_cons.mpr ⟨hb, hbs⟩)

end Ensures

/-! ## Words of a style -/

/-- The keywords that are written, with those of one family of loops. -/
def Keywords.written (k : Keywords) : List String :=
  [k.ifWord, k.thenWord, k.elseWord, k.elseIf, k.endIf, k.input, k.output, k.untilWord] ++
    if k.loopFamily then [k.loop, k.loopWhile, k.endLoop]
    else [k.whileWord, k.doWord, k.endWhile, k.repeatWord, k.forWord, k.endFor]

/-- The name that a call is written with instead of its own. -/
def MethodRule.newName? (rule : MethodRule) : Option String :=
  match rule.form with
  | .rename | .function => some rule.name
  | _ => none

namespace Style

/-- The words that a style writes. -/
def words (style : Style) : List String :=
  style.keywords.written ++
    [style.trueWord, style.falseWord, style.andWord, style.orWord, style.notWord, style.notEqual,
      style.modulo] ++
    style.methods.entries.filterMap (·.2.newName?)

/-- The words that all styles write. -/
def sharedWords : List String :=
  ["length", "new", "array", "remove", "removeItemAt", "1", "="] ++ BinaryOp.all.map (·.symbol)

/-- What may stand between two words. -/
def gaps : List String :=
  [" ", ".", ", ", " = "]

/-- Texts that are composed of words. -/
inductive Composed (style : Style) : String → Prop where
  | own {t : String} (h : t ∈ style.words) : Composed style t
  | shared {t : String} (h : t ∈ sharedWords) : Composed style t
  | lexeme {kind : Kind} {t : String} (hkind : kind ∈ [Kind.identifier, .number, .string])
    (h : Token.isLexeme kind t = true) : Composed style t
  | append {t u : String} (ht : Composed style t) (hu : Composed style u) : Composed style (t ++ u)
  | between {t gap u : String} (ht : Composed style t) (hgap : gap ∈ gaps)
    (hu : Composed style u) : Composed style (t ++ gap ++ u)
  | bracketed {t : String} (h : Composed style t) : Composed style (Text.bracketed t)
  | subscript {t : String} (h : Composed style t) : Composed style (Text.subscript t)
  | noArguments : Composed style (Text.bracketed "")
  | noElements : Composed style (Text.subscript "")

namespace Composed

variable {style : Style} {t : String}

theorem name {n : String} (h : Vocabulary.lexical .identifier n) : style.Composed n :=
  .lexeme (by decide) (Vocabulary.isLexeme_of_lexical h (by decide))

theorem keyword {word : String} (h : word ∈ style.keywords.written) : style.Composed word := by
  apply own
  unfold words
  rw [List.append_assoc]
  exact List.mem_append_left _ h

theorem newName {method : String} {arity : Nat} {rule : MethodRule}
    (hrule : style.methodRule? method arity = some rule) {name : String}
    (hname : rule.newName? = some name) : style.Composed name := by
  obtain ⟨key, hentry, -⟩ := exists_entry_of_methodRule? hrule
  apply own
  apply List.mem_append_right
  exact List.mem_filterMap.mpr ⟨(key, rule), hentry, hname⟩

theorem operator {op : BinaryOp} (hop : op ∈ BinaryOp.all) :
    style.Composed (style.operator op) := by
  unfold Style.operator
  split
  · exact .own (by simp [words])
  · exact .own (by simp [words])
  · exact .shared (by decide)
  · exact .own (by simp [words])
  · exact .own (by simp [words])
  · exact .shared (List.mem_append_right _ (List.mem_map_of_mem hop))

theorem literal {raw : String} (h : Vocabulary.lexical.IsLiteral raw) :
    style.Composed (style.literal raw) := by
  unfold Style.literal
  split
  · exact .own (by simp [words])
  split
  · exact .own (by simp [words])
  rename_i htrue hfalse
  rcases h with h | h | h | h
  · exact .lexeme (by decide) (Vocabulary.isLexeme_of_lexical h (by decide))
  · exact .lexeme (by decide) (Vocabulary.isLexeme_of_lexical h (by decide))
  · exact absurd h htrue
  · exact absurd h hfalse

theorem place (h : style.Composed t) (slot : Slot) (e : Expr) :
    style.Composed (style.place slot e t) := by
  unfold Style.place
  split
  · exact h.bracketed
  · exact h

theorem join {t : String} {ts : List String} (h : ∀ u ∈ t :: ts, style.Composed u) :
    style.Composed (Text.join ", " (t :: ts)) := by
  induction ts generalizing t with
  | nil => exact h t List.mem_cons_self
  | cons u ts ih =>
    obtain ⟨ht, hrest⟩ := List.forall_mem_cons.mp h
    exact ht.between (by decide) (ih hrest)

theorem arguments {ts : List String} (h : ∀ t ∈ ts, style.Composed t) :
    style.Composed (Text.bracketed (Text.join ", " ts)) := by
  cases ts with
  | nil => exact noArguments
  | cons t ts => exact (join h).bracketed

theorem elements {ts : List String} (h : ∀ t ∈ ts, style.Composed t) :
    style.Composed (Text.subscript (Text.join ", " ts)) := by
  cases ts with
  | nil => exact noElements
  | cons t ts => exact (join h).subscript

theorem subscripts (ht : style.Composed t) {keys : List String}
    (h : ∀ key ∈ keys, style.Composed key) :
    style.Composed (t ++ Text.concat (keys.map Text.subscript)) := by
  induction keys generalizing t with
  | nil => simpa [Text.concat] using ht
  | cons key keys ih =>
    obtain ⟨hkey, hkeys⟩ := List.forall_mem_cons.mp h
    have hrest := ih (ht.append hkey.subscript) hkeys
    rwa [String.append_assoc] at hrest

theorem plainCall {receiver name : String} {args : List String}
    (hreceiver : style.Composed receiver) (hname : style.Composed name)
    (hargs : ∀ a ∈ args, style.Composed a) :
    style.Composed (Setting.plainCall receiver name args) :=
  (hreceiver.between (by decide) hname).append (arguments hargs)

theorem operands {left op right : String} (hleft : style.Composed left) (hop : style.Composed op)
    (hright : style.Composed right) : style.Composed (left ++ " " ++ op ++ " " ++ right) :=
  (hleft.between (by decide) hop).between (by decide) hright

/-- A text that is changed by one. -/
theorem changed (h : style.Composed t) (op : UpdateOp) :
    style.Composed (t ++ " " ++ op.sign ++ " 1") := by
  have hsign : style.Composed op.sign := by
    unfold UpdateOp.sign
    split <;> exact .shared (by decide)
  have hone : style.Composed "1" := .shared (by decide)
  have hgap : " 1" = " " ++ "1" := rfl
  rw [hgap, ← String.append_assoc]
  exact operands h hsign hone

end Composed

end Style

/-! ## Texts of expressions -/

theorem AssignOp.mem_of_applied? {op : AssignOp} {applied : BinaryOp}
    (h : op.applied? = some applied) : applied ∈ BinaryOp.all := by
  cases op <;> cases h <;> decide

namespace Setting

variable {s : Setting}

theorem methodText_composed (receiver : Expr) {text n : String} {args : List String}
    (htext : s.style.Composed text) (hn : s.style.Composed n)
    (hargs : ∀ a ∈ args, s.style.Composed a) :
    Ensures s.style.Composed (s.methodText receiver text n args) := by
  unfold methodText
  split
  · exact .ok (.plainCall htext hn hargs)
  rename_i rule hrule
  split
  · exact .ok (.plainCall htext hn hargs)
  · cases args with
    | nil => exact .error _
    | cons key args => exact .ok (htext.append (hargs key List.mem_cons_self).subscript)
  · rcases args with - | ⟨key, - | ⟨value, args⟩⟩
    · exact .error _
    · exact .error _
    · have hkey := hargs key (by simp)
      have hvalue := hargs value (by simp)
      exact .ok ((htext.append hkey.subscript).between (by decide) hvalue)
  · rename_i hform
    have hname : s.style.Composed rule.name :=
      .newName hrule (by simp [MethodRule.newName?, hform])
    exact .ok (.plainCall htext hname hargs)
  · have hlength : s.style.Composed "length" := .shared (by decide)
    exact .ok (hlength.append htext.bracketed)
  · rename_i hform
    have hname : s.style.Composed rule.name :=
      .newName hrule (by simp [MethodRule.newName?, hform])
    exact .ok (hname.append (.arguments (List.forall_mem_cons.mpr ⟨htext, hargs⟩)))
  · have hplain : s.style.Composed (plainCall text "removeItemAt" args) :=
      .plainCall htext (.shared (by decide)) hargs
    split
    · rename_i key
      have hremove : s.style.Composed ("remove" ++ " " ++ text) :=
        .between (.shared (by decide)) (by decide) htext
      split
      · exact .ok (hremove.append (hargs key List.mem_cons_self).subscript)
      · exact .ok hplain
    · exact .ok hplain
  · exact .error _

/-- A property that all of the expressions have in their texts. -/
theorem renderAll_ensures {P : String → Prop} {es : List Expr}
    (h : ∀ e ∈ es, Ensures P (s.render .whole e)) :
    Ensures (fun texts => texts.length = es.length ∧ ∀ t ∈ texts, P t) (s.renderAll es) := by
  induction es with
  | nil => exact .ok ⟨rfl, by simp⟩
  | cons e es ih =>
    rw [renderAll_cons]
    refine (h e List.mem_cons_self).bind ?_
    intro text htext
    refine (ih fun a ha => h a (List.mem_cons_of_mem e ha)).bind ?_
    rintro texts ⟨hlength, htexts⟩
    exact .ok ⟨by simp [hlength], List.forall_mem_cons.mpr ⟨htext, htexts⟩⟩

/-- The text of an expression that was read is composed of words, wherever it stands. -/
theorem render_composed {e : Expr} (he : e.WellFormed .lexical) (slot : Slot) :
    Ensures s.style.Composed (s.render slot e) := by
  induction e generalizing slot with
  | name p n => exact .ok (.name he)
  | literal p raw => exact .ok (.literal he)
  | index p base indices ihbase ihindices =>
    obtain ⟨hbase, -, hindices⟩ := he
    have hindices := Expr.allWellFormed_iff.mp hindices
    rw [render_index]
    refine (renderAll_ensures fun e he => ihindices e he (hindices e he) .whole).bind ?_
    rintro subscripts ⟨-, hsubscripts⟩
    refine (ihbase hbase .receiver).bind ?_
    intro text htext
    exact .ok (htext.subscripts hsubscripts)
  | call p n args ih =>
    obtain ⟨hn, hargs⟩ := he
    have hargs := Expr.allWellFormed_iff.mp hargs
    rw [render_call]
    refine (renderAll_ensures fun e he => ih e he (hargs e he) .whole).bind ?_
    rintro texts ⟨-, htexts⟩
    exact .ok (.append (.name hn) (.arguments htexts))
  | methodCall p receiver n args ihreceiver ihargs =>
    obtain ⟨hreceiver, hn, hargs⟩ := he
    have hargs := Expr.allWellFormed_iff.mp hargs
    rw [render_methodCall]
    refine (ihreceiver hreceiver .receiver).bind ?_
    intro text htext
    refine (renderAll_ensures fun e he => ihargs e he (hargs e he) .whole).bind ?_
    rintro texts ⟨-, htexts⟩
    exact methodText_composed receiver htext (.name hn) htexts
  | property p receiver n ih =>
    obtain ⟨hreceiver, hn, -⟩ := he
    refine (ih hreceiver .receiver).bind ?_
    intro text htext
    exact .ok (htext.between (by decide) (.name hn))
  | length p operand ih =>
    refine (ih he .whole).bind ?_
    intro text htext
    have hlength : s.style.Composed "length" := .shared (by decide)
    exact .ok (hlength.append htext.bracketed)
  | newArray p elementType dims ih =>
    have hdims := Expr.allWellFormed_iff.mp he.2.2
    refine (renderAll_ensures fun e he => ih e he (hdims e he) .whole).bind ?_
    rintro texts ⟨-, htexts⟩
    have hnew : s.style.Composed ("new" ++ " " ++ "array") :=
      .between (.shared (by decide)) (by decide) (.shared (by decide))
    exact .ok (hnew.subscripts htexts)
  | arrayLiteral p elements ih =>
    have helements := Expr.allWellFormed_iff.mp he
    refine (renderAll_ensures fun e he => ih e he (helements e he) .whole).bind ?_
    rintro texts ⟨-, htexts⟩
    exact .ok (.elements htexts)
  | newObject p typeName args ih =>
    obtain ⟨htype, hargs⟩ := he
    have hargs := Expr.allWellFormed_iff.mp hargs
    refine (renderAll_ensures fun e he => ih e he (hargs e he) .whole).bind ?_
    rintro texts ⟨-, htexts⟩
    have hnew : s.style.Composed ("new" ++ " " ++ typeName) :=
      .between (.shared (by decide)) (by decide) (.name htype)
    exact .ok (hnew.append (.arguments htexts))
  | unary p op operand ih =>
    obtain ⟨hop, hoperand⟩ := he
    refine (ih hoperand .prefixed).bind ?_
    intro text htext
    refine .ok (.place ?_ _ _)
    rcases hop with rfl | rfl
    · exact .between (.own (by simp [Style.words])) (by decide) htext
    · exact .append (.shared (by decide)) htext
  | update p op operand ih =>
    refine (ih he.2 .whole).bind ?_
    intro text htext
    exact .ok (.place (htext.changed op) _ _)
  | binary p op l r ihl ihr =>
    obtain ⟨hop, hl, hr⟩ := he
    rw [render_operands]
    refine (ihl hl _).bind ?_
    intro left hleft
    refine (ihr hr _).bind ?_
    intro right hright
    exact .ok (.place (.operands hleft (.operator hop) hright) _ _)
  | assign p target op value ihtarget ihvalue =>
    obtain ⟨-, htarget, hop, hvalue⟩ := he
    refine (ihtarget htarget .whole).bind ?_
    intro goal hgoal
    split
    · split
      · have hinput : s.style.Composed s.style.keywords.input :=
          .keyword (by simp [Keywords.written])
        exact .ok (.place (hinput.between (by decide) hgoal) _ _)
      · refine (ihvalue hvalue .value).bind ?_
        intro text htext
        exact .ok (.place (hgoal.between (by decide) htext) _ _)
    · split
      · exact .error _
      · rename_i applied happlied
        have hop : applied ∈ BinaryOp.all := AssignOp.mem_of_applied? happlied
        refine (ihtarget htarget _).bind ?_
        intro left hleft
        refine (ihvalue hvalue _).bind ?_
        intro right hright
        have hsum := hgoal.between (by decide : " = " ∈ Style.gaps) hleft
        exact .ok (.place (.operands hsum (.operator hop) hright) _ _)
  | unsupported p kind => exact he.elim

end Setting

end Pseudocode
