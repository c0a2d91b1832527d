import Pseudocode.Render.Stmt
import Pseudocode.Style.Catalogue
import Pseudocode.Proofs.Number.Numeral
set_option autoImplicit false

/-!
# Whatever was read can be rendered

Rendering can fail in four ways: at a node that has no place in a program, at an
assignment by an operator outside the subset, at a rule for a method that asks for
arguments the call does not have, and at a number that is no numeral.  The first two do
not occur in a well-formed tree, the third not with the rules of the catalogue, and the
last not with the numbers that a text is cut into.
-/

namespace Pseudocode

/-- The computation has a result. -/
def Yields {ε α : Type} (x : Except ε α) : Prop :=
  ∃ a, x = .ok a

namespace Yields

variable {ε α β : Type}

theorem ok (a : α) : Yields (.ok a : Except ε α) :=
  ⟨a, rfl⟩

theorem bind {x : Except ε α} {f : α → Except ε β} (hx : Yields x) (hf : ∀ a, Yields (f a)) :
    Yields (x >>= f) := by
  obtain ⟨a, rfl⟩ := hx
  exact hf a

theorem mapM {f : α → Except ε β} {as : List α} (h : ∀ a ∈ as, Yields (f a)) :
    Yields (as.mapM f) := by
  induction as with
  | nil => exact ok []
  | cons a as ih =>
    rw [List.mapM_cons]
    refine (h a List.mem_cons_self).bind fun b => ?_
    exact (ih fun a' ha' => h a' (List.mem_cons_of_mem a ha')).bind fun bs => ok (b :: bs)

end Yields

namespace Expr

/-- A number has a value, and nothing else is taken for one. -/
theorem numericValue_yields {e : Expr} (he : e.WellFormed .lexical) : Yields e.numericValue := by
  induction e with
  | unary p op operand ih =>
    cases op with
    | neg => exact (ih he.2).bind fun _ => .ok _
    | _ => exact .ok none
  | literal p raw =>
    have hvalue : Numeral.isIntended raw = true → ∃ x, Numeral.value? raw = some x := by
      intro hintended
      rcases he with (⟨h, -⟩ | h) | (⟨h, -⟩ | h) | rfl | rfl
      · cases h
      · exact Option.isSome_iff_exists.mp (Numeral.value?_isSome h)
      · cases h
      · -- A quote is no digit.
        obtain ⟨c, hc, hquote⟩ := Token.isLexeme_head h
        have hdigit : Text.isDigit c = true := by
          simpa [Numeral.isIntended, Option.mem_def.mp hc] using hintended
        rcases Token.eq_of_isQuote hquote with rfl | rfl <;> exact absurd hdigit (by decide)
      · exact absurd hintended (by decide)
      · exact absurd hintended (by decide)
    unfold numericValue
    split
    · rename_i hintended
      obtain ⟨x, hx⟩ := hvalue hintended
      rw [hx]
      exact .ok _
    · exact .ok none
  | _ => exact .ok none

end Expr

/-! ## Methods -/

/-- A rule that takes arguments from a call is only for calls that have them. -/
def MethodRule.suits (rule : MethodRule) (key : MethodKey) : Bool :=
  match rule.form with
  | .subscriptRead => key.arity.any (1 ≤ ·)
  | .subscriptWrite => key.arity.any (2 ≤ ·)
  | .other _ => false
  | _ => true

/-- Every rule of the style suits its calls. -/
def Style.isSound (style : Style) : Bool :=
  style.methods.entries.all fun entry => entry.2.suits entry.1

theorem Style.isSound_of_mem {style : Style} (h : style ∈ catalogue) : style.isSound = true := by
  have hall : ∀ style ∈ catalogue, style.isSound = true := by decide
  exact hall style h

/-- A rule is found under a key for the number of arguments at hand. -/
theorem Style.exists_entry_of_methodRule? {style : Style} {method : String} {arity : Nat}
    {rule : MethodRule} (hrule : style.methodRule? method arity = some rule) :
    ∃ key : MethodKey, (key, rule) ∈ style.methods.entries ∧ ∀ n ∈ key.arity, n = arity := by
  have hget : ∀ key : MethodKey, style.methods.get? key = some rule →
      (key, rule) ∈ style.methods.entries := by
    intro key hkey
    obtain ⟨before, after, heq, -⟩ := List.lookup_eq_some_iff.mp hkey
    simp [heq]
  unfold methodRule? at hrule
  rcases Option.or_eq_some_iff.mp hrule with hrule | ⟨-, hrule⟩
  · exact ⟨_, hget _ hrule, by simp⟩
  · exact ⟨_, hget _ hrule, by simp⟩

theorem Style.suits_of_methodRule? {style : Style} (h : style.isSound = true) {method : String}
    {arity : Nat} {rule : MethodRule} (hrule : style.methodRule? method arity = some rule) :
    ∃ key : MethodKey, rule.suits key = true ∧ ∀ n ∈ key.arity, n = arity := by
  obtain ⟨key, hentry, harity⟩ := exists_entry_of_methodRule? hrule
  exact ⟨key, List.all_eq_true.mp h (key, rule) hentry, harity⟩

namespace Setting

variable {s : Setting} {V : Vocabulary}

theorem methodText_yields (hs : s.style.isSound = true) (receiver : Expr) (text n : String)
    (args : List String) : Yields (s.methodText receiver text n args) := by
  unfold methodText
  split
  · exact .ok _
  rename_i rule hrule
  obtain ⟨key, hsuits, harity⟩ := Style.suits_of_methodRule? hs hrule
  unfold MethodRule.suits at hsuits
  split
  · exact .ok _
  · rename_i hform
    simp only [hform, Option.any_eq_true, decide_eq_true_eq] at hsuits
    obtain ⟨m, hm, hle⟩ := hsuits
    have hlen := harity m hm
    match args with
    | [] => exact absurd (hlen ▸ hle) (by simp)
    | key :: _ => exact .ok _
  · rename_i hform
    simp only [hform, Option.any_eq_true, decide_eq_true_eq] at hsuits
    obtain ⟨m, hm, hle⟩ := hsuits
    have hlen := harity m hm
    match args with
    | [] => exact absurd (hlen ▸ hle) (by simp)
    | [_] => exact absurd (hlen ▸ hle) (by simp)
    | key :: value :: _ => exact .ok _
  · exact .ok _
  · exact .ok _
  · exact .ok _
  · split
    · split <;> exact .ok _
    · exact .ok _
  · rename_i hform
    simp [hform] at hsuits

end Setting

/-! ## Expressions -/

namespace Style

/-- The slot of the left operand of `op`, where `e` is the whole in its own slot. -/
def leftSlot (style : Style) (slot : Slot) (op : BinaryOp) (e : Expr) : Slot :=
  if op.isLogical then .link op (style.linkWraps slot op e) else .left op

/-- The slot of the right operand of `op`. -/
def rightSlot (style : Style) (slot : Slot) (op : BinaryOp) (e : Expr) : Slot :=
  if op.isLogical then .link op (style.linkWraps slot op e) else .right op

theorem leftSlot_logical {style : Style} {slot : Slot} {op : BinaryOp} (h : op.isLogical = true)
    {e : Expr} : style.leftSlot slot op e = .link op (style.linkWraps slot op e) :=
  if_pos h

theorem rightSlot_logical {style : Style} {slot : Slot} {op : BinaryOp} (h : op.isLogical = true)
    {e : Expr} : style.rightSlot slot op e = .link op (style.linkWraps slot op e) :=
  if_pos h

end Style

namespace Setting

variable {s : Setting} {V : Vocabulary}

/-- Operands are rendered in their slots, from the left. -/
theorem render_operands (slot : Slot) (p : Pos) (op : BinaryOp) (l r : Expr) :
    s.render slot (.binary p op l r) = (do
      let left ← s.render (s.style.leftSlot slot op (.binary p op l r)) l
      let right ← s.render (s.style.rightSlot slot op (.binary p op l r)) r
      return s.style.place slot (.binary p op l r)
        (left ++ " " ++ s.style.operator op ++ " " ++ right)) := by
  unfold Style.leftSlot Style.rightSlot
  cases hlogical : op.isLogical with
  | true => exact render_logical s slot p hlogical l r
  | false => exact render_binary s slot p hlogical l r

theorem renderAll_yields {es : List Expr} (h : ∀ e ∈ es, Yields (s.render .whole e)) :
    Yields (s.renderAll es) := by
  induction es with
  | nil => exact .ok []
  | cons e es ih =>
    rw [renderAll_cons]
    refine (h e List.mem_cons_self).bind fun text => ?_
    exact (ih fun a ha => h a (List.mem_cons_of_mem e ha)).bind fun texts => .ok (text :: texts)

theorem render_yields (hs : s.style.isSound = true) {e : Expr} (he : e.WellFormed V)
    (slot : Slot) : Yields (s.render slot e) := by
  induction e generalizing slot with
  | name p n => exact .ok n
  | literal p raw => exact .ok _
  | index p base indices ihbase ihindices =>
    obtain ⟨hbase, -, hindices⟩ := he
    have hindices := Expr.allWellFormed_iff.mp hindices
    rw [render_index]
    refine (renderAll_yields fun e he => ihindices e he (hindices e he) .whole).bind fun _ => ?_
    exact (ihbase hbase .receiver).bind fun _ => .ok _
  | call p n args ih | newObject p typeName args ih =>
    have hargs := Expr.allWellFormed_iff.mp he.2
    exact (renderAll_yields fun e he => ih e he (hargs e he) .whole).bind fun _ => .ok _
  | methodCall p receiver n args ihreceiver ihargs =>
    obtain ⟨hreceiver, -, hargs⟩ := he
    have hargs := Expr.allWellFormed_iff.mp hargs
    rw [render_methodCall]
    refine (ihreceiver hreceiver .receiver).bind fun text => ?_
    refine (renderAll_yields fun e he => ihargs e he (hargs e he) .whole).bind fun args => ?_
    exact methodText_yields hs receiver text n args
  | property p receiver n ih => exact (ih he.1 .receiver).bind fun _ => .ok _
  | length p operand ih => exact (ih he .whole).bind fun _ => .ok _
  | newArray p elementType dims ih =>
    have hdims := Expr.allWellFormed_iff.mp he.2.2
    exact (renderAll_yields fun e he => ih e he (hdims e he) .whole).bind fun _ => .ok _
  | arrayLiteral p elements ih =>
    have helements := Expr.allWellFormed_iff.mp he
    exact (renderAll_yields fun e he => ih e he (helements e he) .whole).bind fun _ => .ok _
  | unary p op operand ih => exact (ih he.2 .prefixed).bind fun _ => .ok _
  | update p op operand ih => exact (ih he.2 .whole).bind fun _ => .ok _
  | binary p op l r ihl ihr =>
    obtain ⟨-, hl, hr⟩ := he
    rw [render_operands]
    exact (ihl hl _).bind fun _ => (ihr hr _).bind fun _ => .ok _
  | assign p target op value ihtarget ihvalue =>
    obtain ⟨-, htarget, hop, hvalue⟩ := he
    refine (ihtarget htarget .whole).bind fun goal => ?_
    split
    · split
      · exact .ok _
      · exact (ihvalue hvalue .value).bind fun _ => .ok _
    · rename_i hset
      split
      · rename_i hnone
        cases op <;> simp_all [AssignOp.all, AssignOp.applied?]
      · exact (ihtarget htarget _).bind fun _ => (ihvalue hvalue _).bind fun _ => .ok _
  | unsupported p kind => exact he.elim

end Setting

/-! ## Headers of loops and printed texts -/

namespace Expr

variable {V : Vocabulary}

theorem concatParts_wellFormed {e : Expr} (he : e.WellFormed V) :
    ∀ part ∈ e.concatParts.1, part.WellFormed V := by
  fun_induction concatParts e with
  | case1 p l r parts hparts ih =>
    obtain ⟨-, hl, hr⟩ := he
    have hleft := ih hl
    rw [hparts] at hleft
    intro part hpart
    rcases List.mem_append.mp hpart with hpart | hpart
    · exact hleft part hpart
    · obtain rfl := List.mem_singleton.mp hpart
      exact hr
  | case2 p l r =>
    obtain ⟨-, hl, hr⟩ := he
    simp [hl, hr]
  | case3 p l r => simpa using he
  | case4 e => simpa using he

theorem printedItems_wellFormed {args : List Expr} (h : ∀ a ∈ args, a.WellFormed V) :
    ∀ item ∈ printedItems args, item.WellFormed V := by
  unfold printedItems
  split
  · rename_i e
    have he := h e List.mem_cons_self
    dsimp only
    split
    · exact concatParts_wellFormed he
    · exact h
  · exact h

theorem printed?_wellFormed {e : Expr} {args : List Expr} (he : e.WellFormed V)
    (h : e.printed? = some args) : ∀ a ∈ args, a.WellFormed V := by
  unfold printed? at h
  split at h
  · split at h
    · obtain rfl := Option.some.inj h
      exact allWellFormed_iff.mp he.2.2
    · cases h
  · cases h

theorem inverted_wellFormed {e : Expr} (he : e.WellFormed V) : e.inverted.WellFormed V := by
  unfold inverted
  split
  · exact he.2
  · rename_i p op l r
    obtain ⟨hop, hl, hr⟩ := he
    split
    · rename_i inverse hinverse
      refine ⟨?_, hl, hr⟩
      cases op <;> cases hinverse <;> decide
    · exact ⟨.inl rfl, hop, hl, hr⟩
  · exact ⟨.inl rfl, he⟩

end Expr

namespace Setting

variable {s : Setting} {V : Vocabulary}

theorem renderStatement_yields (hs : s.style.isSound = true) {e : Expr} (he : e.WellFormed V) :
    Yields (s.renderStatement e) := by
  unfold renderStatement
  split
  · exact .ok _
  · rename_i args _ hprinted
    have hargs := Expr.printedItems_wellFormed (Expr.printed?_wellFormed he hprinted)
    exact (Yields.mapM fun item hitem => render_yields hs (hargs item hitem) .item).bind
      fun _ => .ok _
  · split
    · exact (render_yields hs he.2 .whole).bind fun _ => .ok _
    · exact render_yields hs he .whole

theorem renderAssignment_yields (hs : s.style.isSound = true) {a : Assignment}
    (ha : a.WellFormed V) : Yields (s.renderAssignment a) := by
  have he : (Expr.assign a.pos a.target a.op a.value).WellFormed V := ha
  exact render_yields hs he .whole

theorem renderUpdate_yields (hs : s.style.isSound = true) {u : Update} (hu : u.WellFormed V) :
    Yields (s.renderUpdate u) :=
  (render_yields hs hu.2.1 .whole).bind fun _ => .ok _

/-- The text of a part that may be missing. -/
theorem elim_yields (hs : s.style.isSound = true) {e : Option Expr} (missing : String)
    (he : ∀ a ∈ e, a.WellFormed V) (slot : Slot) :
    Yields (e.elim (.ok missing) (s.render slot)) := by
  cases e with
  | none => exact .ok missing
  | some e => exact render_yields hs (he e rfl) slot

theorem initText_yields (hs : s.style.isSound = true) {init : Option ForInit}
    (hinit : ∀ i ∈ init, i.WellFormed V) : Yields (s.initText init) := by
  unfold initText
  split
  · rename_i d
    have hd : d.WellFormed V := (hinit _ rfl).1
    exact (elim_yields hs "0" hd.2.2 .value).bind fun _ => .ok _
  · rename_i a
    have ha : a.WellFormed V := hinit _ rfl
    exact renderAssignment_yields hs ha
  · exact .ok ""

theorem stepText_yields (hs : s.style.isSound = true) {update : Option ForUpdate}
    (hupdate : ∀ u ∈ update, u.WellFormed V) : Yields (s.stepText update) := by
  unfold stepText
  split
  · rename_i u
    have hu : u.WellFormed V := hupdate _ rfl
    exact renderUpdate_yields hs hu
  · rename_i e
    have he : e.WellFormed V := hupdate _ rfl
    exact renderStatement_yields hs he
  · exact .ok ""

theorem structuredHeader_yields (hs : s.style.isSound = true) {init : Option ForInit}
    {test : Option Expr} {update : Option ForUpdate} (hinit : ∀ i ∈ init, i.WellFormed V)
    (htest : ∀ e ∈ test, e.WellFormed V) (hupdate : ∀ u ∈ update, u.WellFormed V) :
    Yields (s.structuredHeader init test update) := by
  refine (initText_yields hs hinit).bind fun _ => ?_
  refine (elim_yields hs "" htest .whole).bind fun _ => ?_
  exact (stepText_yields hs hupdate).bind fun _ => .ok _

end Setting

theorem loopStep_wellFormed {update : Option ForUpdate}
    (hupdate : ∀ u ∈ update, u.WellFormed .lexical) (p : Pos) (name : String) :
    (loopStep p update name).1.WellFormed .lexical := by
  have hone : (Expr.literal p "1").WellFormed .lexical := .inl (.inr (by decide))
  unfold loopStep
  split
  · exact hone
  · exact hone
  · have he := hupdate _ rfl
    exact he.2.2.2
  · have he := hupdate _ rfl
    exact he.2.2.2
  · have he := hupdate _ rfl
    split
    · split
      · exact he.2.2.2.2.2
      · exact he.2.2.2.2.2
      · exact hone
    · exact hone
  · exact hone

theorem loopBound?_wellFormed {V : Vocabulary} {test : Option Expr}
    (htest : ∀ e ∈ test, e.WellFormed V) {name : String} {op : BinaryOp} {bound : Expr}
    (h : loopBound? test name = some (op, bound)) : bound.WellFormed V := by
  unfold loopBound? at h
  split at h
  · obtain ⟨-, hleft, hright⟩ := htest _ rfl
    split at h
    · cases h
    split at h
    · cases h
      exact hleft
    · cases h
      exact hright
  · cases h

namespace Setting

variable {s : Setting}

theorem loopStart_yields {V : Vocabulary} (hs : s.style.isSound = true) {init : Option ForInit}
    (hinit : ∀ i ∈ init, i.WellFormed V) (test : Option Expr) (update : Option ForUpdate) :
    Yields (s.loopStart init test update) := by
  unfold loopStart
  split
  · rename_i d
    have hd : d.WellFormed V := (hinit _ rfl).1
    exact (elim_yields hs "0" hd.2.2 .whole).bind fun _ => .ok _
  · rename_i a
    have ha : a.WellFormed V := hinit _ rfl
    refine (render_yields hs ha.2.1 .whole).bind fun _ => ?_
    exact (render_yields hs ha.2.2.2 .whole).bind fun _ => .ok _
  · exact .ok _

theorem endBefore_yields (hs : s.style.isSound = true) {bound step : Expr}
    (hbound : bound.WellFormed .lexical) (hstep : step.WellFormed .lexical) (op : BinaryOp) :
    Yields (s.endBefore op bound step) := by
  have hwritten : Yields (s.writtenEnd op bound step) :=
    (render_yields hs hbound .whole).bind fun _ =>
      (render_yields hs hstep .prefixed).bind fun _ => .ok _
  refine (Expr.numericValue_yields hbound).bind fun _ => ?_
  refine (Expr.numericValue_yields hstep).bind fun _ => ?_
  split
  · split
    · exact .ok _
    · exact hwritten
  · exact hwritten

theorem loopEnd_yields (hs : s.style.isSound = true) {test : Option Expr} {step : Expr}
    (htest : ∀ e ∈ test, e.WellFormed .lexical) (hstep : step.WellFormed .lexical)
    (name : String) (direction : Direction) : Yields (s.loopEnd test name step direction) := by
  unfold loopEnd
  split
  · exact .ok _
  rename_i op bound hbound
  have hbound := loopBound?_wellFormed htest hbound
  have hat : Yields (s.render .whole bound) := render_yields hs hbound .whole
  have hbefore : ∀ op, Yields (s.endBefore op bound step) := endBefore_yields hs hbound hstep
  split
  · exact .ok _
  · exact hat.bind fun _ => .ok _
  · exact hat.bind fun _ => .ok _
  · exact (hbefore .gt).bind fun _ => .ok _
  · split
    · exact (hbefore .gt).bind fun _ => .ok _
    · exact (hbefore .lt).bind fun _ => .ok _
  · exact (hbefore .lt).bind fun _ => .ok _

theorem countingHeader_yields (hs : s.style.isSound = true) (p : Pos) {init : Option ForInit}
    {test : Option Expr} {update : Option ForUpdate} (hinit : ∀ i ∈ init, i.WellFormed .lexical)
    (htest : ∀ e ∈ test, e.WellFormed .lexical)
    (hupdate : ∀ u ∈ update, u.WellFormed .lexical) :
    Yields (s.countingHeader p init test update) := by
  refine (loopStart_yields hs hinit test update).bind fun start => ?_
  have hstep := loopStep_wellFormed hupdate p start.1
  refine (loopEnd_yields hs htest hstep _ _).bind fun _ => ?_
  refine (Expr.numericValue_yields hstep).bind fun _ => ?_
  split
  · exact .ok _
  · exact (render_yields hs hstep .whole).bind fun _ => .ok _

theorem forHead_yields (hs : s.style.isSound = true) (p : Pos) {init : Option ForInit}
    {test : Option Expr} {update : Option ForUpdate} (hinit : ∀ i ∈ init, i.WellFormed .lexical)
    (htest : ∀ e ∈ test, e.WellFormed .lexical)
    (hupdate : ∀ u ∈ update, u.WellFormed .lexical) :
    Yields (s.forHead p init test update) := by
  unfold forHead
  split
  · exact (countingHeader_yields hs p hinit htest hupdate).bind fun _ => .ok _
  · exact (structuredHeader_yields hs hinit htest hupdate).bind fun _ => .ok _

end Setting

/-! ## Statements -/

theorem Declaration.emit_yields {V : Vocabulary} {style : Style} (hs : style.isSound = true)
    {d : Declaration} (hd : d.WellFormed V) (page : Page) : Yields (d.emit style page) := by
  unfold emit
  dsimp only
  split
  · exact .ok _
  split
  · exact .ok _
  · rename_i value hvalue
    split
    · exact .ok _
    · exact (Setting.render_yields hs (hd.2.2 value hvalue) .value).bind fun _ => .ok _

namespace Stmt

theorem emitAll_yields {style : Style} {stmts : List Stmt}
    (h : ∀ stmt ∈ stmts, ∀ page, Yields (emit style stmt page)) (page : Page) :
    Yields (emitAll style stmts page) := by
  induction stmts generalizing page with
  | nil => exact .ok page
  | cons stmt stmts ih =>
    refine (h stmt List.mem_cons_self page).bind fun page => ?_
    exact ih (fun a ha => h a (List.mem_cons_of_mem stmt ha)) page

/-- A statement that is no branch is written behind `else` as it is on its own. -/
theorem yields_of_emit {style : Style} {stmt : Stmt}
    (hbranch : ∀ p test consequent alternate, stmt ≠ .ifElse p test consequent alternate)
    (hemit : ∀ page, Yields (emit style stmt page)) :
    (∀ page, Yields (emit style stmt page)) ∧
      ∀ page, Yields (emitElse style (some stmt) page) := by
  refine ⟨hemit, fun page => ?_⟩
  cases stmt with
  | ifElse p test consequent alternate => exact absurd rfl (hbranch p test consequent alternate)
  | _ => exact (hemit _).bind fun _ => .ok _

/-- A statement can be written, on its own and behind `else`. -/
theorem emit_yields {style : Style} (hs : style.isSound = true) {stmt : Stmt}
    (h : stmt.WellFormed .lexical) :
    (∀ page, Yields (emit style stmt page)) ∧
      ∀ page, Yields (emitElse style (some stmt) page) := by
  induction stmt with
  | block p body ih =>
    have hbody := allWellFormed_iff.mp h
    refine yields_of_emit (by simp) (emitAll_yields fun stmt hstmt => ?_)
    exact (ih stmt hstmt (hbody stmt hstmt)).1
  | declaration d => exact yields_of_emit (by simp) (d.emit_yields hs h)
  | assignment a =>
    refine yields_of_emit (by simp) fun page => ?_
    exact (Setting.renderAssignment_yields hs h).bind fun _ => .ok _
  | update u =>
    refine yields_of_emit (by simp) fun page => ?_
    exact (Setting.renderUpdate_yields hs h).bind fun _ => .ok _
  | expression p e | call p e =>
    refine yields_of_emit (by simp) fun page => ?_
    exact (Setting.renderStatement_yields hs h).bind fun _ => .ok _
  | ifElse p test consequent alternate ihconsequent ihalternate =>
    obtain ⟨htest, hconsequent, halternate⟩ := h
    have halternate := optionWellFormed_iff.mp halternate
    have helse : ∀ page, Yields (emitElse style alternate page) := by
      intro page
      cases alternate with
      | none => exact .ok page
      | some stmt => exact (ihalternate stmt rfl (halternate stmt rfl)).2 page
    have hhead : ∀ page : Page, Yields ((page.setting style).render .whole test) := fun page =>
      Setting.render_yields hs htest .whole
    constructor
    · intro page
      refine (hhead page).bind fun _ => ?_
      refine ((ihconsequent hconsequent).1 _).bind fun page => ?_
      exact (helse _).bind fun _ => .ok _
    · intro page
      refine (hhead page).bind fun _ => ?_
      exact ((ihconsequent hconsequent).1 _).bind fun page => helse _
  | whileLoop p test body ih =>
    obtain ⟨htest, hbody⟩ := h
    refine yields_of_emit (by simp) fun page => ?_
    refine (Setting.render_yields hs htest .whole).bind fun _ => ?_
    exact ((ih hbody).1 _).bind fun _ => .ok _
  | doWhileLoop p body test ih =>
    obtain ⟨hbody, htest⟩ := h
    refine yields_of_emit (by simp) fun page => ?_
    refine ((ih hbody).1 _).bind fun page => ?_
    exact (Setting.render_yields hs (Expr.inverted_wellFormed htest) .whole).bind fun _ => .ok _
  | forLoop p init test step body ih =>
    obtain ⟨hinit, htest, hstep, hbody⟩ := h
    refine yields_of_emit (by simp) fun page => ?_
    refine (Setting.forHead_yields hs p hinit htest hstep).bind fun _ => ?_
    exact ((ih hbody).1 _).bind fun _ => .ok _
  | unsupported kind => exact h.elim

end Stmt

/-- A well-formed program can be written in every style of the catalogue. -/
theorem Program.render_yields {style : Style} (hs : style ∈ Style.catalogue) {program : Program}
    (h : program.WellFormed .lexical) : Yields (program.render style) :=
  Stmt.emitAll_yields
    (fun stmt hstmt => (Stmt.emit_yields (Style.isSound_of_mem hs) (h stmt hstmt)).1) _

end Pseudocode
