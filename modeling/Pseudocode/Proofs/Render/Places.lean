import Pseudocode.Proofs.Render.Brackets
import Pseudocode.Render.Stmt
set_option autoImplicit false

/-!
# Rendering does not look at positions

The text of a program with its positions moved is the text of the program.  What
rendering finds out about an expression is the same for the moved one, and what it makes
of an expression (its parts, its inverse, the step of a loop) is moved along.
-/

namespace Pseudocode

variable (φ : Pos → Pos)

/-! ## Shapes -/

namespace Expr

@[simp] theorem isRelational_move (e : Expr) :
    (Pseudocode.move φ e).isRelational = e.isRelational := by
  cases e <;> rfl

@[simp] theorem isStringLiteral_move (e : Expr) :
    (Pseudocode.move φ e).isStringLiteral = e.isStringLiteral := by
  cases e <;> rfl

@[simp] theorem isNamed_move (n : String) (e : Expr) :
    (Pseudocode.move φ e).isNamed n = e.isNamed n := by
  cases e <;> rfl

@[simp] theorem isAssign_move (e : Expr) : (Pseudocode.move φ e).isAssign = e.isAssign := by
  cases e <;> rfl

@[simp] theorem isBinary_move (e : Expr) : (Pseudocode.move φ e).isBinary = e.isBinary := by
  cases e <;> rfl

@[simp] theorem isUnary_move (e : Expr) : (Pseudocode.move φ e).isUnary = e.isUnary := by
  cases e <;> rfl

@[simp] theorem isUpdate_move (e : Expr) : (Pseudocode.move φ e).isUpdate = e.isUpdate := by
  cases e <;> rfl

@[simp] theorem isLooserChain_move (op : BinaryOp) (e : Expr) :
    (Pseudocode.move φ e).isLooserChain op = e.isLooserChain op := by
  cases e <;> rfl

@[simp] theorem variableOf_move (e : Expr) :
    Expr.variable? (Pseudocode.move φ e) = Expr.variable? e := by
  cases e <;> rfl

@[simp] theorem propertyChain_move (e : Expr) :
    (Pseudocode.move φ e).propertyChain = e.propertyChain := by
  induction e with
  | property p receiver n ih => simp only [move_property, propertyChain, ih]
  | index | call | methodCall | newArray | arrayLiteral | newObject => simp [propertyChain]
  | _ => rfl

@[simp] theorem isInputCall_move (e : Expr) :
    (Pseudocode.move φ e).isInputCall = e.isInputCall := by
  induction e with
  | methodCall p receiver n args ih _ =>
    simp only [move_methodCall, isInputCall, ih]
    cases receiver <;> simp
  | index | call | newArray | arrayLiteral | newObject => simp [isInputCall]
  | _ => rfl

@[simp] theorem chainLength_move (op : BinaryOp) (e : Expr) :
    (Pseudocode.move φ e).chainLength op = e.chainLength op := by
  induction e with
  | binary p op' l r ihl ihr => simp only [move_binary, chainLength, ihl, ihr]
  | index | call | methodCall | newArray | arrayLiteral | newObject => simp [chainLength]
  | _ => rfl

@[simp] theorem numericValue_move (e : Expr) :
    (Pseudocode.move φ e).numericValue = e.numericValue := by
  induction e with
  | unary p op operand ih => cases op <;> simp only [move_unary, numericValue, ih]
  | index | call | methodCall | newArray | arrayLiteral | newObject => simp [numericValue]
  | _ => rfl

/-- The parts of a sum move with it. -/
theorem concatParts_move (e : Expr) :
    (Pseudocode.move φ e).concatParts = Pseudocode.move φ e.concatParts := by
  induction e with
  | binary p op l r ihl ihr =>
    cases op with
    | add =>
      simp only [move_binary, concatParts, ihl, isStringLiteral_move]
      rcases l.concatParts with ⟨parts, isString⟩
      cases isString <;> cases r.isStringLiteral <;> simp
    | _ => rfl
  | index | call | methodCall | newArray | arrayLiteral | newObject =>
    simp [concatParts, isStringLiteral]
  | _ => rfl

theorem inverted_move (e : Expr) :
    (Pseudocode.move φ e).inverted = Pseudocode.move φ e.inverted := by
  cases e with
  | unary p op operand => cases op <;> rfl
  | binary p op l r => cases op <;> rfl
  | _ => simp [inverted, pos]

theorem printed?_move (e : Expr) :
    (Pseudocode.move φ e).printed? = Pseudocode.move φ e.printed? := by
  cases e with
  | methodCall p receiver n args =>
    simp only [move_methodCall, printed?, propertyChain_move]
    split <;> rfl
  | index | call | newArray | arrayLiteral | newObject => simp [printed?]
  | _ => rfl

theorem printedItems_move (args : List Expr) :
    printedItems (Pseudocode.move φ args) = Pseudocode.move φ (printedItems args) := by
  match args with
  | [] => rfl
  | [e] =>
    simp only [move_cons, move_nil, printedItems, concatParts_move]
    rcases e.concatParts with ⟨parts, isString⟩
    simp only [move_prod, move_bool, length_move]
    split <;> simp
  | e :: e' :: es => rfl

end Expr

namespace Style

@[simp] theorem wraps_move (style : Style) (slot : Slot) (e : Expr) :
    style.wraps slot (move φ e) = style.wraps slot e := by
  cases slot <;> simp [wraps, wrapsOperand, Expr.outerOp?_move]

@[simp] theorem place_move (style : Style) (slot : Slot) (e : Expr) (text : String) :
    style.place slot (move φ e) text = style.place slot e text := by
  simp only [place, wraps_move]

@[simp] theorem linkWraps_move (style : Style) (slot : Slot) (op : BinaryOp) (e : Expr) :
    style.linkWraps slot op (move φ e) = style.linkWraps slot op e := by
  cases slot <;> simp [linkWraps, wrapsComparisons]

end Style

/-! ## Expressions -/

namespace Setting

variable (s : Setting)

theorem methodText_move (receiver : Expr) (text n : String) (args : List String) :
    s.methodText (move φ receiver) text n args = s.methodText receiver text n args := by
  have hkeyed : s.isKeyed (move φ receiver) text = s.isKeyed receiver text := by
    cases receiver <;> rfl
  simp only [methodText, hkeyed]

theorem renderAll_move {es : List Expr}
    (h : ∀ e ∈ es, s.render .whole (move φ e) = s.render .whole e) :
    s.renderAll (move φ es) = s.renderAll es := by
  induction es with
  | nil => rfl
  | cons e es ih =>
    have hes : s.renderAll (move φ es) = s.renderAll es := by
      apply ih
      intro e' he'
      exact h e' (List.mem_cons_of_mem e he')
    rw [move_cons, renderAll_cons, renderAll_cons, h e List.mem_cons_self, hes]

@[simp] theorem render_move (slot : Slot) (e : Expr) :
    s.render slot (move φ e) = s.render slot e := by
  induction e generalizing slot with
  | name | literal | unsupported => rfl
  | index p base indices ihbase ih =>
    rw [Expr.move_index, render_index, render_index, ihbase,
      renderAll_move φ s fun e he => ih e he .whole]
  | call p n args ih =>
    rw [Expr.move_call, render_call, render_call, renderAll_move φ s fun e he => ih e he .whole]
  | methodCall p receiver n args ihreceiver ih =>
    rw [Expr.move_methodCall, render_methodCall, render_methodCall, ihreceiver,
      renderAll_move φ s fun e he => ih e he .whole]
    simp only [methodText_move]
  | property p receiver n ih => rw [Expr.move_property, render_property, render_property, ih]
  | length p operand ih => simp only [Expr.move_length, render, ih]
  | newArray p elementType dims ih =>
    simp only [Expr.move_newArray, render, renderAll_move φ s fun e he => ih e he .whole]
  | arrayLiteral p elements ih =>
    simp only [Expr.move_arrayLiteral, render, renderAll_move φ s fun e he => ih e he .whole]
  | newObject p typeName args ih =>
    simp only [Expr.move_newObject, render, renderAll_move φ s fun e he => ih e he .whole]
  | unary p op operand ih =>
    have hplace := s.style.place_move φ slot (.unary p op operand)
    simp only [Expr.move_unary] at hplace
    simp only [Expr.move_unary, render, ih, hplace]
  | update p op operand ih =>
    have hplace := s.style.place_move φ slot (.update p op operand)
    simp only [Expr.move_update] at hplace
    simp only [Expr.move_update, render, ih, hplace]
  | binary p op l r ihl ihr =>
    have hplace := s.style.place_move φ slot (.binary p op l r)
    have hwraps := s.style.linkWraps_move φ slot op (.binary p op l r)
    simp only [Expr.move_binary] at hplace hwraps
    simp only [Expr.move_binary, render, ihl, ihr, hplace, hwraps]
  | assign p target op value ihtarget ihvalue =>
    have hplace := s.style.place_move φ slot (.assign p target op value)
    simp only [Expr.move_assign] at hplace
    simp only [Expr.move_assign, render, ihtarget, ihvalue, hplace, Expr.isInputCall_move]

theorem mapM_render_move (slot : Slot) (es : List Expr) :
    (move φ es).mapM (s.render slot) = es.mapM (s.render slot) := by
  induction es with
  | nil => rfl
  | cons e es ih => simp only [move_cons, List.mapM_cons, render_move, ih]

theorem elim_render_move (slot : Slot) (default : Except RenderError String) (e : Option Expr) :
    (move φ e).elim default (s.render slot) = e.elim default (s.render slot) := by
  cases e with
  | none => rfl
  | some e => exact render_move φ s slot e

/-! ## Lines -/

@[simp] theorem renderStatement_move (e : Expr) :
    s.renderStatement (move φ e) = s.renderStatement e := by
  unfold renderStatement
  rw [Expr.printed?_move]
  cases e.printed? with
  | none =>
    cases e with
    | update p op operand => simp only [move_none, Expr.move_update, render_move]
    | _ => exact render_move φ s .whole _
  | some args =>
    cases args with
    | nil => rfl
    | cons arg args =>
      have hitems := mapM_render_move φ s .item (Expr.printedItems (arg :: args))
      rw [← Expr.printedItems_move] at hitems
      simp only [move_cons] at hitems
      simp only [move_some, move_cons, hitems]

@[simp] theorem renderAssignment_move (a : Assignment) :
    s.renderAssignment (move φ a) = s.renderAssignment a :=
  render_move φ s .whole (.assign a.pos a.target a.op a.value)

@[simp] theorem renderUpdate_move (u : Update) : s.renderUpdate (move φ u) = s.renderUpdate u := by
  have htarget : (move φ u).target = move φ u.target := rfl
  have hop : (move φ u).op = u.op := rfl
  simp only [renderUpdate, htarget, hop, render_move]

/-! ## Headers -/

theorem structuredHeader_move (init : Option ForInit) (test : Option Expr)
    (update : Option ForUpdate) :
    s.structuredHeader (move φ init) (move φ test) (move φ update) =
      s.structuredHeader init test update := by
  have hinit : s.initText (move φ init) = s.initText init := by
    match init with
    | none => rfl
    | some (.declaration d) =>
      have hvalue := elim_render_move φ s .value (.ok "0") d.value
      show (do let value ← (move φ d.value).elim _ _; return d.name ++ " = " ++ value) = _
      rw [hvalue]
      rfl
    | some (.assignment a) => exact renderAssignment_move φ s a
    | some (.unsupported kind) => rfl
  have hstep : s.stepText (move φ update) = s.stepText update := by
    match update with
    | none => rfl
    | some (.update u) => exact renderUpdate_move φ s u
    | some (.expression e) => exact renderStatement_move φ s e
    | some (.unsupported kind) => rfl
  rw [structuredHeader, structuredHeader, hinit, hstep, elim_render_move]

end Setting

@[simp] theorem ForUpdate.move_expression (e : Expr) :
    move φ (ForUpdate.expression e) = .expression (move φ e) := rfl

/-- The step of a loop moves with its update. -/
theorem loopStep_move (p : Pos) (update : Option ForUpdate) (n : String) :
    loopStep (φ p) (move φ update) n =
      (move φ (loopStep p update n).1, (loopStep p update n).2) := by
  match update with
  | none | some (.update _) | some (.unsupported _) => rfl
  | some (.expression e) =>
    cases e with
    | assign q target op value =>
      cases op with
      | set =>
        cases value with
        | binary r op left right =>
          simp only [move_some, ForUpdate.move_expression, Expr.move_assign, Expr.move_binary,
            loopStep, Expr.isNamed_move]
          split
          · cases op <;> rfl
          · rfl
        | _ => rfl
      | _ => rfl
    | _ => rfl

theorem loopVariable_move (test : Option Expr) (update : Option ForUpdate) :
    loopVariable (move φ test) (move φ update) = loopVariable test update := by
  have hchanged : ((move φ update).bind ForUpdate.target?).bind Expr.variable? =
      (update.bind ForUpdate.target?).bind Expr.variable? := by
    match update with
    | none | some (.unsupported _) => rfl
    | some (.update u) => exact Expr.variableOf_move φ u.target
    | some (.expression e) =>
      cases e with
      | assign p target op value => exact Expr.variableOf_move φ target
      | update p op operand => exact Expr.variableOf_move φ operand
      | _ => rfl
  have htested : ((move φ test).elim [] Expr.comparedSides).findSome? Expr.variable? =
      (test.elim [] Expr.comparedSides).findSome? Expr.variable? := by
    match test with
    | none => rfl
    | some e =>
      cases e with
      | binary p op l r =>
        simp only [move_some, Option.elim_some, Expr.move_binary, Expr.comparedSides]
        split <;> simp [List.findSome?_cons]
      | _ => rfl
  simp only [loopVariable, hchanged, htested]

theorem loopBound?_move (test : Option Expr) (n : String) :
    loopBound? (move φ test) n = (loopBound? test n).map fun b => (b.1, move φ b.2) := by
  match test with
  | none => rfl
  | some e =>
    cases e with
    | binary p op l r =>
      simp only [move_some, Expr.move_binary, loopBound?, Expr.isNamed_move]
      split
      · rfl
      · split <;> rfl
    | _ => rfl

namespace Setting

variable (s : Setting)

theorem endBefore_move (op : BinaryOp) (bound step : Expr) :
    s.endBefore op (move φ bound) (move φ step) = s.endBefore op bound step := by
  have hwritten : s.writtenEnd op (move φ bound) (move φ step) = s.writtenEnd op bound step := by
    simp only [writtenEnd, render_move]
  simp only [endBefore, Expr.numericValue_move, hwritten]

theorem loopEnd_move (test : Option Expr) (n : String) (step : Expr) (direction : Direction) :
    s.loopEnd (move φ test) n (move φ step) direction = s.loopEnd test n step direction := by
  unfold loopEnd
  rw [loopBound?_move]
  cases loopBound? test n with
  | none => rfl
  | some b => simp only [Option.map_some, render_move, endBefore_move]

theorem loopStart_move (init : Option ForInit) (test : Option Expr) (update : Option ForUpdate) :
    s.loopStart (move φ init) (move φ test) (move φ update) = s.loopStart init test update := by
  match init with
  | none | some (.unsupported _) =>
    have hname := loopVariable_move φ test update
    show Except.ok (loopVariable _ _, if loopVariable _ _ = "" then _ else _) = _
    rw [hname]
    rfl
  | some (.declaration d) =>
    have hvalue := elim_render_move φ s .whole (.ok "0") d.value
    show (do let value ← (move φ d.value).elim _ _; return (d.name, value)) = _
    rw [hvalue]
    rfl
  | some (.assignment a) =>
    show (do
      let name ← s.render .whole (move φ a.target)
      let value ← s.render .whole (move φ a.value)
      return (name, value)) = _
    rw [render_move, render_move]
    rfl

theorem countingHeader_move (p : Pos) (init : Option ForInit) (test : Option Expr)
    (update : Option ForUpdate) :
    s.countingHeader (φ p) (move φ init) (move φ test) (move φ update) =
      s.countingHeader p init test update := by
  simp only [countingHeader, loopStart_move, loopStep_move, loopEnd_move, Expr.numericValue_move,
    render_move]

theorem forHead_move (p : Pos) (init : Option ForInit) (test : Option Expr)
    (update : Option ForUpdate) :
    s.forHead (φ p) (move φ init) (move φ test) (move φ update) =
      s.forHead p init test update := by
  simp only [forHead, countingHeader_move, structuredHeader_move]

end Setting

/-! ## Statements -/

theorem Declaration.emit_move (style : Style) (d : Declaration) (page : Page) :
    (move φ d).emit style page = d.emit style page := by
  obtain ⟨p, name, typeName, dims, value⟩ := d
  cases value with
  | none => rfl
  | some value =>
    show Declaration.emit style ⟨φ p, name, typeName, dims, some (move φ value)⟩ page = _
    simp only [emit, Expr.isInputCall_move, Setting.render_move]

theorem Page.declareInit_move (page : Page) (init : Option ForInit) :
    page.declareInit (move φ init) = page.declareInit init := by
  match init with
  | none | some (.declaration _) | some (.assignment _) | some (.unsupported _) => rfl

namespace Stmt

variable (style : Style)

theorem emitAll_move {stmts : List Stmt}
    (h : ∀ stmt ∈ stmts, ∀ page, emit style (Pseudocode.move φ stmt) page = emit style stmt page)
    (page : Page) : emitAll style (Pseudocode.move φ stmts) page = emitAll style stmts page := by
  induction stmts generalizing page with
  | nil => rfl
  | cons stmt stmts ih =>
    have hstmts : ∀ page,
        emitAll style (Pseudocode.move φ stmts) page = emitAll style stmts page := by
      apply ih
      intro stmt' hstmt'
      exact h stmt' (List.mem_cons_of_mem stmt hstmt')
    simp only [move_cons, emitAll, h stmt List.mem_cons_self, hstmts]

/-- Behind `else`, a statement that is no further branch is written one step deeper. -/
theorem emitElse_eq {stmt : Stmt} (h : stmt.isBranch = false) (page : Page) :
    emitElse style (some stmt) page =
      (emit style stmt (page.write style.keywords.elseWord).deeper >>= fun page =>
        pure page.shallower) := by
  cases stmt with
  | ifElse => cases h
  | _ => rfl

/-- What is written behind `else` follows from what is written elsewhere, but for a
further branch. -/
theorem emitElse_move {stmt : Stmt} (h : stmt.isBranch = false)
    (hemit : ∀ page, emit style (Pseudocode.move φ stmt) page = emit style stmt page) :
    (∀ page, emit style (Pseudocode.move φ stmt) page = emit style stmt page) ∧
      ∀ page, emitElse style (some (Pseudocode.move φ stmt)) page =
        emitElse style (some stmt) page := by
  have hmoved : (Pseudocode.move φ stmt).isBranch = false := by
    rw [isBranch_move, h]
  refine ⟨hemit, fun page => ?_⟩
  rw [emitElse_eq style h, emitElse_eq style hmoved, hemit]

/-- Moving a statement changes neither what is written for it nor what is written for it
behind `else`. -/
theorem emit_move (stmt : Stmt) :
    (∀ page, emit style (Pseudocode.move φ stmt) page = emit style stmt page) ∧
      ∀ page, emitElse style (some (Pseudocode.move φ stmt)) page =
        emitElse style (some stmt) page := by
  induction stmt with
  | block p body ih =>
    apply emitElse_move φ style rfl
    intro page
    show emitAll style (moveAll φ body) page = emitAll style body page
    rw [moveAll_eq]
    exact emitAll_move φ style (fun stmt hstmt => (ih stmt hstmt).1) page
  | declaration d => exact emitElse_move φ style rfl fun page => d.emit_move φ style page
  | assignment a =>
    apply emitElse_move φ style rfl
    intro page
    show (Setting.renderAssignment _ (Pseudocode.move φ a) >>= _) = _
    rw [Setting.renderAssignment_move]
    rfl
  | update u =>
    apply emitElse_move φ style rfl
    intro page
    show (Setting.renderUpdate _ (Pseudocode.move φ u) >>= _) = _
    rw [Setting.renderUpdate_move]
    rfl
  | expression p e | call p e =>
    apply emitElse_move φ style rfl
    intro page
    show (Setting.renderStatement _ (Pseudocode.move φ e) >>= _) = _
    rw [Setting.renderStatement_move]
    rfl
  | ifElse p test consequent alternate ihconsequent ihalternate =>
    have helse : ∀ page, emitElse style (moveOption φ alternate) page =
        emitElse style alternate page := by
      intro page
      cases alternate with
      | none => rfl
      | some stmt => exact (ihalternate stmt rfl).2 page
    have hconsequent : ∀ page, emit style (consequent.move φ) page = emit style consequent page :=
      ihconsequent.1
    have hmoved : Pseudocode.move φ (ifElse p test consequent alternate) =
        .ifElse (φ p) (Pseudocode.move φ test) (consequent.move φ) (moveOption φ alternate) := rfl
    rw [hmoved]
    constructor
    · intro page
      simp only [emit, Setting.render_move, hconsequent, helse]
    · intro page
      simp only [emitElse, Setting.render_move, hconsequent, helse]
  | whileLoop p test body ih =>
    apply emitElse_move φ style rfl
    intro page
    show emit style (.whileLoop (φ p) (Pseudocode.move φ test) (Pseudocode.move φ body)) page = _
    simp only [emit, Setting.render_move, ih.1]
  | doWhileLoop p body test ih =>
    apply emitElse_move φ style rfl
    intro page
    show emit style (.doWhileLoop (φ p) (Pseudocode.move φ body) (Pseudocode.move φ test)) page = _
    simp only [emit, Expr.inverted_move, Setting.render_move, ih.1]
  | forLoop p init test step body ih =>
    apply emitElse_move φ style rfl
    intro page
    show emit style (.forLoop (φ p) (Pseudocode.move φ init) (Pseudocode.move φ test)
      (Pseudocode.move φ step) (Pseudocode.move φ body)) page = _
    simp only [emit, Page.declareInit_move, Setting.forHead_move, ih.1]
  | unsupported kind => exact ⟨fun _ => rfl, fun _ => rfl⟩

end Stmt

/-- The pseudocode of a program does not depend on where its parts stand. -/
theorem Program.render_move (style : Style) (program : Program) :
    (move φ program).render style = program.render style :=
  Stmt.emitAll_move φ style (fun stmt _ => (Stmt.emit_move φ style stmt).1) (.blank style)

end Pseudocode
