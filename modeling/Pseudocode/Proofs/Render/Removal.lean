import Mathlib.Data.List.Induction
import Pseudocode.Proofs.Program.Removal
import Pseudocode.Proofs.Reader.Order
import Pseudocode.Proofs.Render.Edges
import Pseudocode.Proofs.Render.Places
set_option autoImplicit false

/-!
# Removals by the latest declaration

The types on a page are those of the latest declarations before.  A removal is therefore written
in the form that the latest declaration of its variable asks for, wherever it stands: nothing
that is written changes if all removals of a program are settled by that declaration first.
-/

namespace Pseudocode

/-! ## Types of variables -/

namespace TypeTable

/-- The types that variables have behind further declarations. -/
def declareAll (types : TypeTable) (ds : List Declaration) : TypeTable :=
  ds.foldl (fun types d => types.declare d.name d.typeName) types

theorem declareAll_append (types : TypeTable) (ds ds' : List Declaration) :
    types.declareAll (ds ++ ds') = (types.declareAll ds).declareAll ds' :=
  List.foldl_append

/-- The types that variables have behind the declarations. -/
def ofDeclarations (ds : List Declaration) : TypeTable :=
  empty.declareAll ds

theorem ofDeclarations_append (ds ds' : List Declaration) :
    ofDeclarations (ds ++ ds') = (ofDeclarations ds).declareAll ds' :=
  declareAll_append empty ds ds'

/-- The type of a variable is that of its latest declaration. -/
theorem find?_ofDeclarations (ds : List Declaration) (n : String) :
    (ofDeclarations ds).find? n = (latest? ds n).map Declaration.typeName := by
  induction ds using List.reverseRecOn with
  | nil => rfl
  | append_singleton ds d ih =>
    -- The induction is from the back, since a new declaration comes behind all others.
    have hlast : (ofDeclarations ds).declareAll [d] =
        (ofDeclarations ds).declare d.name d.typeName := rfl
    rw [ofDeclarations_append, hlast]
    by_cases hn : d.name = n
    · subst hn
      simp [latest?]
    · rw [find?_declare_of_ne _ _ (Ne.symm hn), ih]
      simp [latest?, hn]

end TypeTable

theorem Setting.isKeyed_name {s : Setting} {ds : List Declaration}
    (htypes : s.types = .ofDeclarations ds) (q : Pos) (n text : String) :
    s.isKeyed (.name q n) text = keyedBehind ds n := by
  rw [isKeyed, htypes, TypeTable.find?_ofDeclarations, keyedBehind]
  cases latest? ds n <;> rfl

/-! ## Removals in the styles -/

/-- Every style has a rule for removals, and none for the name that they get. -/
theorem Style.methodRule?_remove {style : Style} (hs : style ∈ catalogue) :
    (∃ rule, style.methodRule? "remove" 1 = some rule ∧ rule.form = .remove) ∧
      style.methodRule? "removeItemAt" 1 = none := by
  have hall : catalogue.all (fun style =>
      (style.methodRule? "remove" 1).map (·.form) == some .remove &&
        (style.methodRule? "removeItemAt" 1).isNone) = true := by decide
  obtain ⟨hremove, hitem⟩ := Bool.and_eq_true_iff.mp (List.all_eq_true.mp hall style hs)
  exact ⟨Option.map_eq_some_iff.mp (eq_of_beq hremove), Option.isNone_iff_eq_none.mp hitem⟩

namespace Style

variable (style : Style) (keyed : Keys) (slot : Slot)

@[simp] theorem wraps_settle (e : Expr) :
    style.wraps slot (e.settle keyed) = style.wraps slot e := by
  cases e with
  | methodCall =>
    cases slot <;> exact Expr.settle_shape keyed (fun _ _ _ _ => rfl) (fun _ _ _ => rfl) ..
  | _ => cases slot <;> rfl

@[simp] theorem place_settle (e : Expr) (text : String) :
    style.place slot (e.settle keyed) text = style.place slot e text := by
  simp only [place, wraps_settle]

@[simp] theorem linkWraps_settle (op : BinaryOp) (e : Expr) :
    style.linkWraps slot op (e.settle keyed) = style.linkWraps slot op e := by
  cases slot <;> simp [linkWraps, wrapsComparisons]

end Style

/-! ## Expressions -/

/-- The text of a removal from a variable. -/
def removalText (byKey : Bool) (r key : String) : String :=
  if byKey then "remove " ++ r ++ "[" ++ key ++ "]" else r ++ ".removeItemAt(" ++ key ++ ")"

theorem removalText_true (r key : String) :
    removalText true r key = "remove " ++ r ++ Text.subscript key := by
  rw [removalText, if_pos rfl, Text.subscript, ← String.append_assoc, ← String.append_assoc]

theorem removalText_false (r key : String) :
    removalText false r key = Setting.plainCall r "removeItemAt" [key] := by
  have hsigns : ".removeItemAt(" = "." ++ ("removeItemAt" ++ "(") := by decide
  rw [removalText, if_neg Bool.false_ne_true, hsigns, Setting.plainCall, Text.bracketed]
  simp only [String.append_assoc]
  rfl

namespace Setting

variable {s : Setting} {ds : List Declaration}

/-- A removal in its form has the text that the form says, in every style. -/
theorem render_removal (hs : s.style ∈ Style.catalogue) (slot : Slot) (byKey : Bool) (p q : Pos)
    (r : String) (k : Expr) :
    s.render slot (.removal byKey p q r k) = (s.render .whole k).map (removalText byKey r) := by
  cases byKey with
  | true =>
    rw [Expr.removal, if_pos rfl, render_index, renderAll_cons]
    cases s.render .whole k with
    | error => rfl
    | ok key =>
      show Except.ok ("remove " ++ r ++ (Text.subscript key ++ "")) =
        .ok (removalText true r key)
      rw [String.append_empty, removalText_true]
  | false =>
    have hplain : ∀ key, s.methodText (.name q r) r "removeItemAt" [key] =
        .ok (removalText false r key) := by
      intro key
      rw [methodText, List.length_singleton, (Style.methodRule?_remove hs).2, removalText_false]
    rw [Expr.removal, if_neg Bool.false_ne_true, render_methodCall, renderAll_cons]
    cases s.render .whole k with
    | error => rfl
    | ok key => exact hplain key

/-- A removal from a variable has the text that the latest declaration asks for. -/
theorem render_remove (hs : s.style ∈ Style.catalogue) (htypes : s.types = .ofDeclarations ds)
    (slot : Slot) (p q : Pos) (r : String) (k : Expr) :
    s.render slot (.methodCall p (.name q r) "remove" [k]) =
      (s.render .whole k).map (removalText (keyedBehind ds r) r) := by
  obtain ⟨⟨rule, hrule, hform⟩, -⟩ := Style.methodRule?_remove hs
  have htext : ∀ key, s.methodText (.name q r) r "remove" [key] =
      .ok (removalText (keyedBehind ds r) r key) := by
    intro key
    rw [methodText, List.length_singleton, hrule]
    simp only [hform, isKeyed_name htypes]
    cases keyedBehind ds r with
    | true => rw [if_pos rfl, removalText_true]
    | false => rw [if_neg Bool.false_ne_true, removalText_false]
  rw [render_methodCall, renderAll_cons]
  cases s.render .whole k with
  | error => rfl
  | ok key => exact htext key

/-- A call of a method looks at no more of its receiver than settling keeps. -/
theorem methodText_settle (keyed : Keys) (receiver : Expr) (text n : String)
    (args : List String) :
    s.methodText (receiver.settle keyed) text n args = s.methodText receiver text n args := by
  have hkeyed : s.isKeyed (receiver.settle keyed) text = s.isKeyed receiver text := by
    cases receiver with
    | methodCall =>
      exact Expr.settle_shape keyed (f := fun e => s.isKeyed e text) (fun _ _ _ _ => rfl)
        (fun _ _ _ => rfl) ..
    | _ => rfl
  simp only [methodText, hkeyed]

theorem renderAll_settle {keyed : Keys} {es : List Expr}
    (h : ∀ e ∈ es, s.render .whole (e.settle keyed) = s.render .whole e) :
    s.renderAll (es.map (Expr.settle keyed)) = s.renderAll es := by
  induction es with
  | nil => rfl
  | cons e es ih =>
    have hes := ih fun e' he' => h e' (List.mem_cons_of_mem e he')
    rw [List.map_cons, renderAll_cons, renderAll_cons, h e List.mem_cons_self, hes]

variable (hs : s.style ∈ Style.catalogue) (htypes : s.types = .ofDeclarations ds)

include hs htypes

/-- **Settled expressions.**  Settling the removals of an expression by the latest declarations
does not change how it is written. -/
theorem render_settle (slot : Slot) (e : Expr) :
    s.render slot (e.settle (keysBehind ds)) = s.render slot e := by
  induction e generalizing slot with
  | name | literal | unsupported => rfl
  | index p base indices ihbase ih =>
    rw [Expr.settle, Expr.settleAll_eq, render_index, render_index, ihbase,
      renderAll_settle fun e he => ih e he .whole]
  | call p n args ih =>
    rw [Expr.settle, Expr.settleAll_eq, render_call, render_call,
      renderAll_settle fun e he => ih e he .whole]
  | methodCall p receiver n args ihreceiver ih =>
    rcases Expr.settle_methodCall (keysBehind ds) p receiver n args with
      ⟨q, r, k, rfl, rfl, rfl, h⟩ | h
    · rw [h, render_removal hs, render_remove hs htypes, ih k List.mem_cons_self]
      rfl
    · rw [h, render_methodCall, render_methodCall, ihreceiver,
        renderAll_settle fun e he => ih e he .whole]
      simp only [methodText_settle]
  | property p receiver n ih => rw [Expr.settle, render_property, render_property, ih]
  | length p operand ih => simp only [Expr.settle, render, ih]
  | newArray p elementType dims ih | arrayLiteral p elements ih | newObject p typeName args ih =>
    simp only [Expr.settle, Expr.settleAll_eq, render, renderAll_settle fun e he => ih e he .whole]
  | unary p op operand ih =>
    have hplace := s.style.place_settle (keysBehind ds) slot (.unary p op operand)
    simp only [Expr.settle] at hplace
    simp only [Expr.settle, render, ih, hplace]
  | update p op operand ih =>
    have hplace := s.style.place_settle (keysBehind ds) slot (.update p op operand)
    simp only [Expr.settle] at hplace
    simp only [Expr.settle, render, ih, hplace]
  | binary p op l r ihl ihr =>
    have hplace := s.style.place_settle (keysBehind ds) slot (.binary p op l r)
    have hwraps := s.style.linkWraps_settle (keysBehind ds) slot op (.binary p op l r)
    simp only [Expr.settle] at hplace hwraps
    simp only [Expr.settle, render, ihl, ihr, hplace, hwraps]
  | assign p target op value ihtarget ihvalue =>
    have hplace := s.style.place_settle (keysBehind ds) slot (.assign p target op value)
    simp only [Expr.settle] at hplace
    simp only [Expr.settle, render, ihtarget, ihvalue, hplace, Expr.isInputCall_settle]

theorem mapM_render_settle (slot : Slot) (es : List Expr) :
    (es.map (Expr.settle (keysBehind ds))).mapM (s.render slot) = es.mapM (s.render slot) := by
  induction es with
  | nil => rfl
  | cons e es ih => simp only [List.map_cons, List.mapM_cons, render_settle hs htypes, ih]

theorem elim_render_settle (slot : Slot) (default : Except RenderError String) (e : Option Expr) :
    (e.map (Expr.settle (keysBehind ds))).elim default (s.render slot) =
      e.elim default (s.render slot) := by
  cases e with
  | none => rfl
  | some e => exact render_settle hs htypes slot e

/-! ## Lines -/

theorem renderStatement_settle (e : Expr) :
    s.renderStatement (e.settle (keysBehind ds)) = s.renderStatement e := by
  unfold renderStatement
  rw [Expr.printed?_settle]
  cases hprinted : e.printed? with
  | none =>
    cases e with
    | update p op operand =>
      simp only [Option.map_none, Expr.settle, render_settle hs htypes]
    | methodCall p receiver n args =>
      have hcall := render_settle hs htypes .whole (.methodCall p receiver n args)
      rcases Expr.settle_methodCall_cases (keysBehind ds) p receiver n args with
        ⟨_, _, h⟩ | ⟨_, _, _, h⟩ <;>
      · rw [h] at hcall ⊢
        exact hcall
    | _ => exact render_settle hs htypes .whole _
  | some args =>
    cases args with
    | nil => rfl
    | cons arg args =>
      have hitems := mapM_render_settle hs htypes .item (Expr.printedItems (arg :: args))
      rw [← Expr.printedItems_settle] at hitems
      simp only [List.map_cons] at hitems
      simp only [Option.map_some, List.map_cons, hitems]

theorem renderAssignment_settle (a : Assignment) :
    s.renderAssignment (a.settle (keysBehind ds)) = s.renderAssignment a :=
  render_settle hs htypes .whole (.assign a.pos a.target a.op a.value)

theorem renderUpdate_settle (u : Update) :
    s.renderUpdate (u.settle (keysBehind ds)) = s.renderUpdate u := by
  simp only [renderUpdate, Update.settle, render_settle hs htypes]

/-! ## Headers -/

theorem structuredHeader_settle (init : Option ForInit) (test : Option Expr)
    (step : Option ForUpdate) :
    s.structuredHeader (init.map (ForInit.settle (keysBehind ds)))
        (test.map (Expr.settle (keysBehind ds))) (step.map (ForUpdate.settle (keysBehind ds))) =
      s.structuredHeader init test step := by
  have hinit : s.initText (init.map (ForInit.settle (keysBehind ds))) = s.initText init := by
    rcases init with _ | d | a | _
    · rfl
    · simp only [Option.map_some, ForInit.settle, initText, Declaration.settle,
        elim_render_settle hs htypes]
    · exact renderAssignment_settle hs htypes a
    · rfl
  have hstep : s.stepText (step.map (ForUpdate.settle (keysBehind ds))) = s.stepText step := by
    rcases step with _ | u | e | _
    · rfl
    · exact renderUpdate_settle hs htypes u
    · exact renderStatement_settle hs htypes e
    · rfl
  rw [structuredHeader, structuredHeader, hinit, hstep, elim_render_settle hs htypes]

theorem endBefore_settle (op : BinaryOp) (bound step : Expr) :
    s.endBefore op (bound.settle (keysBehind ds)) (step.settle (keysBehind ds)) =
      s.endBefore op bound step := by
  have hwritten : s.writtenEnd op (bound.settle (keysBehind ds)) (step.settle (keysBehind ds)) =
      s.writtenEnd op bound step := by
    simp only [writtenEnd, render_settle hs htypes]
  simp only [endBefore, Expr.numericValue_settle, hwritten]

theorem loopEnd_settle (test : Option Expr) (n : String) (step : Expr) (direction : Direction) :
    s.loopEnd (test.map (Expr.settle (keysBehind ds))) n (step.settle (keysBehind ds)) direction =
      s.loopEnd test n step direction := by
  unfold loopEnd
  rw [loopBound?_settle]
  cases loopBound? test n with
  | none => rfl
  | some b => simp only [Option.map_some, render_settle hs htypes, endBefore_settle hs htypes]

theorem loopStart_settle (init : Option ForInit) (test : Option Expr) (step : Option ForUpdate) :
    s.loopStart (init.map (ForInit.settle (keysBehind ds)))
        (test.map (Expr.settle (keysBehind ds))) (step.map (ForUpdate.settle (keysBehind ds))) =
      s.loopStart init test step := by
  rcases init with _ | d | a | _
  · simp only [Option.map_none, loopStart, loopVariable_settle]
  · simp only [Option.map_some, ForInit.settle, loopStart, Declaration.settle,
      elim_render_settle hs htypes]
  · simp only [Option.map_some, ForInit.settle, loopStart, Assignment.settle,
      render_settle hs htypes]
  · simp only [Option.map_some, ForInit.settle, loopStart, loopVariable_settle]

theorem forHead_settle (p : Pos) (init : Option ForInit) (test : Option Expr)
    (step : Option ForUpdate) :
    s.forHead p (init.map (ForInit.settle (keysBehind ds)))
        (test.map (Expr.settle (keysBehind ds))) (step.map (ForUpdate.settle (keysBehind ds))) =
      s.forHead p init test step := by
  simp only [forHead, countingHeader, loopStart_settle hs htypes, loopStep_settle,
    loopEnd_settle hs htypes, Expr.numericValue_settle, render_settle hs htypes,
    structuredHeader_settle hs htypes]

end Setting

/-! ## Statements -/

/-- What follows a computation matters for its results only. -/
theorem Ensures.bind_congr {ε α β : Type} {P : α → Prop} {x : Except ε α} {f g : α → Except ε β}
    (hx : Ensures P x) (h : ∀ a, P a → f a = g a) : x >>= f = x >>= g := by
  cases x with
  | error => rfl
  | ok a => exact h a (hx a rfl)

/-- The page has the types of another one and of declarations that were met since. -/
def Page.Meets (page : Page) (mentions : List Mention) (page' : Page) : Prop :=
  page'.types = page.types.declareAll (Mention.declarations mentions)

namespace Page.Meets

variable {page page₁ page₂ : Page} {mentions more : List Mention}

theorem trans (h : page.Meets mentions page₁) (h' : page₁.Meets more page₂) :
    page.Meets (mentions ++ more) page₂ := by
  rw [Meets, Mention.declarations_append, TypeTable.declareAll_append, ← h]
  exact h'

theorem ofDeclarations {ds : List Declaration} (h : page.Meets mentions page₁)
    (htypes : page.types = .ofDeclarations ds) :
    page₁.types = .ofDeclarations (ds ++ Mention.declarations mentions) := by
  rw [TypeTable.ofDeclarations_append, ← htypes]
  exact h

/-- Where nothing is declared, the types stay what they are. -/
theorem of_none (hnone : Mention.declarations mentions = []) (h : page₁.types = page.types) :
    page.Meets mentions page₁ := by
  rw [Meets, hnone]
  exact h

theorem skip (hnone : Mention.declarations mentions = []) (h : page.Meets more page₁) :
    page.Meets (mentions ++ more) page₁ :=
  (of_none hnone rfl).trans h

end Page.Meets

theorem Page.meets_declareInit (page : Page) (init : Option ForInit) :
    page.Meets (init.toList.flatMap ForInit.mentions) (page.declareInit init) := by
  rcases init with _ | d | a | _
  · rfl
  · show _ = page.types.declareAll (Mention.declarations (d.mentions ++ []))
    rw [List.append_nil, d.declarations_mentions]
    rfl
  · show _ = page.types.declareAll (Mention.declarations (a.mentions ++ []))
    rw [List.append_nil, a.declarations_mentions]
    rfl
  · rfl

theorem Page.declareInit_settle (page : Page) (keyed : Keys) (init : Option ForInit) :
    page.declareInit (init.map (ForInit.settle keyed)) = page.declareInit init := by
  rcases init with _ | _ | _ | _ <;> rfl

theorem Declaration.emit_meets (style : Style) (d : Declaration) (page : Page) :
    Ensures (page.Meets d.mentions) (d.emit style page) := by
  have hmeets : ∀ {page' : Page}, page'.types = page.types.declare d.name d.typeName →
      page.Meets d.mentions page' := by
    intro page' htypes
    rw [Page.Meets, d.declarations_mentions]
    exact htypes
  unfold emit
  split
  · exact .ok (hmeets rfl)
  · split
    · exact .ok (hmeets rfl)
    · split
      · exact .ok (hmeets rfl)
      · exact .after fun _ => .ok (hmeets rfl)

namespace Stmt

variable (style : Style)

theorem emitAll_meets {stmts : List Stmt}
    (h : ∀ stmt ∈ stmts, ∀ page, Ensures (page.Meets stmt.mentions) (emit style stmt page))
    (page : Page) : Ensures (page.Meets (allMentions stmts)) (emitAll style stmts page) := by
  induction stmts generalizing page with
  | nil => exact .ok rfl
  | cons stmt stmts ih =>
    refine (h stmt List.mem_cons_self page).bind fun page₁ hpage₁ => ?_
    have hstmts := ih fun stmt' hstmt' => h stmt' (List.mem_cons_of_mem stmt hstmt')
    exact (hstmts page₁).mono fun page₂ hpage₂ => hpage₁.trans hpage₂

/-- Behind `else` no other declarations are met, but for a further branch. -/
theorem emitElse_meets {stmt : Stmt} (h : stmt.isBranch = false)
    (hemit : ∀ page, Ensures (page.Meets stmt.mentions) (emit style stmt page)) :
    (∀ page, Ensures (page.Meets stmt.mentions) (emit style stmt page)) ∧
      ∀ page, Ensures (page.Meets stmt.mentions) (emitElse style (some stmt) page) := by
  refine ⟨hemit, fun page => ?_⟩
  rw [emitElse_eq style h]
  exact (hemit (page.write style.keywords.elseWord).deeper).bind fun _ hpage => .ok hpage

/-- Writing a statement meets its declarations, one after the other. -/
theorem emit_meets (stmt : Stmt) :
    (∀ page, Ensures (page.Meets stmt.mentions) (emit style stmt page)) ∧
      ∀ page, Ensures (page.Meets stmt.mentions) (emitElse style (some stmt) page) := by
  induction stmt with
  | block p body ih =>
    exact emitElse_meets style rfl fun page =>
      emitAll_meets style (fun stmt hstmt => (ih stmt hstmt).1) page
  | declaration d => exact emitElse_meets style rfl fun page => d.emit_meets style page
  | assignment a =>
    refine emitElse_meets style rfl fun page => .after fun text => .ok ?_
    exact Page.Meets.of_none a.declarations_mentions rfl
  | update u =>
    refine emitElse_meets style rfl fun page => .after fun text => .ok ?_
    exact Page.Meets.of_none u.target.declarations_mentions rfl
  | expression p e | call p e =>
    refine emitElse_meets style rfl fun page => .after fun text => .ok ?_
    exact Page.Meets.of_none e.declarations_mentions rfl
  | ifElse p test consequent alternate ihconsequent ihalternate =>
    have helse : ∀ page, Ensures (page.Meets (elseMentions alternate))
        (emitElse style alternate page) := by
      intro page
      cases alternate with
      | none => exact .ok rfl
      | some stmt => exact (ihalternate stmt rfl).2 page
    constructor
    · intro page
      refine .after fun text => (ihconsequent.1 _).bind fun page₁ hpage₁ => ?_
      refine (helse page₁.shallower).bind fun page₂ hpage₂ => .ok ?_
      exact (hpage₁.trans hpage₂).skip test.declarations_mentions
    · intro page
      refine .after fun text => (ihconsequent.1 _).bind fun page₁ hpage₁ => ?_
      refine (helse page₁.shallower).mono fun page₂ hpage₂ => ?_
      exact (hpage₁.trans hpage₂).skip test.declarations_mentions
  | whileLoop p test body ih =>
    refine emitElse_meets style rfl fun page => .after fun text => ?_
    exact (ih.1 _).bind fun page₁ hpage₁ => .ok (hpage₁.skip test.declarations_mentions)
  | doWhileLoop p body test ih =>
    refine emitElse_meets style rfl fun page => (ih.1 _).bind fun page₁ hpage₁ => ?_
    refine .after fun text => .ok (hpage₁.trans ?_)
    exact Page.Meets.of_none test.declarations_mentions rfl
  | forLoop p init test step body ih =>
    refine emitElse_meets style rfl fun page => .after fun head => ?_
    refine (ih.1 _).bind fun page₁ hpage₁ => .ok ?_
    exact (page.meets_declareInit init).trans ((hpage₁.skip
      (ForUpdate.declarations_optionMentions step)).skip (Expr.declarations_optionMentions test))
  | unsupported kind => exact ⟨fun _ => .error _, fun _ => .error _⟩

end Stmt

/-! ## Settled statements -/

section Settled

variable {style : Style} {keyed : Keys} {ds : List Declaration} {page : Page}

/-- An expression that `keyed` speaks about is written as the settled one. -/
theorem Setting.render_of_saysLatest (hs : style ∈ Style.catalogue)
    (htypes : page.types = .ofDeclarations ds) {e : Expr} (h : SaysLatest keyed ds e.mentions)
    (slot : Slot) :
    (page.setting style).render slot (e.settle keyed) = (page.setting style).render slot e := by
  rw [h.settle_eq]
  exact render_settle hs htypes slot e

theorem Declaration.emit_settle (hs : style ∈ Style.catalogue)
    (htypes : page.types = .ofDeclarations ds) {d : Declaration}
    (h : SaysLatest keyed ds d.mentions) :
    (d.settle keyed).emit style page = d.emit style page := by
  have hdeclared : (page.declare d.name d.typeName).types = .ofDeclarations (ds ++ [d]) := by
    rw [TypeTable.ofDeclarations_append, ← htypes]
    rfl
  rw [h.settle_declaration_eq]
  obtain ⟨p, name, typeName, dims, value⟩ := d
  cases value with
  | none => rfl
  | some value =>
    simp only [settle, emit, Option.map_some, Expr.isInputCall_settle]
    rw [Setting.render_settle hs hdeclared]

namespace Stmt

/-- Settling a statement by the latest declarations changes nothing of what is written for it. -/
def SettlesWell (style : Style) (keyed : Keys) (stmt : Stmt) : Prop :=
  (∀ ds page, page.types = .ofDeclarations ds → SaysLatest keyed ds stmt.mentions →
    emit style (stmt.settle keyed) page = emit style stmt page) ∧
  ∀ ds page, page.types = .ofDeclarations ds → SaysLatest keyed ds stmt.mentions →
    emitElse style (some (stmt.settle keyed)) page = emitElse style (some stmt) page

/-- What is written behind `else` follows from what is written elsewhere, but for a further
branch. -/
theorem settlesWell_of_not_branch {stmt : Stmt} (hbranch : stmt.isBranch = false)
    (hemit : ∀ ds page, page.types = .ofDeclarations ds → SaysLatest keyed ds stmt.mentions →
      emit style (stmt.settle keyed) page = emit style stmt page) :
    SettlesWell style keyed stmt := by
  refine ⟨hemit, fun ds page htypes h => ?_⟩
  have hsettled : (stmt.settle keyed).isBranch = false := by
    rw [isBranch_settle, hbranch]
  rw [emitElse_eq style hbranch, emitElse_eq style hsettled,
    hemit ds (page.write _).deeper htypes h]

theorem emitAll_settle {stmts : List Stmt} (h : ∀ stmt ∈ stmts, SettlesWell style keyed stmt)
    (htypes : page.types = .ofDeclarations ds) (hlatest : SaysLatest keyed ds (allMentions stmts)) :
    emitAll style (settleAll keyed stmts) page = emitAll style stmts page := by
  induction stmts generalizing ds page with
  | nil => rfl
  | cons stmt stmts ih =>
    rw [settleAll, emitAll, emitAll,
      (h stmt List.mem_cons_self).1 ds page htypes hlatest.left]
    refine ((emit_meets style stmt).1 page).bind_congr fun page₁ hpage₁ => ?_
    exact ih (fun stmt' hstmt' => h stmt' (List.mem_cons_of_mem stmt hstmt'))
      (hpage₁.ofDeclarations htypes) hlatest.right

/-- **Settled statements.**  At every point of a statement the page has the types of the latest
declarations, so that its removals may be settled before it is written. -/
theorem settlesWell (hs : style ∈ Style.catalogue) (stmt : Stmt) :
    SettlesWell style keyed stmt := by
  induction stmt with
  | block p body ih =>
    exact settlesWell_of_not_branch rfl fun ds page htypes h => emitAll_settle ih htypes h
  | declaration d =>
    exact settlesWell_of_not_branch rfl fun ds page htypes h => d.emit_settle hs htypes h
  | assignment a =>
    refine settlesWell_of_not_branch rfl fun ds page htypes h => ?_
    have ha : (page.setting style).renderAssignment (a.settle keyed) =
        (page.setting style).renderAssignment a := by
      rw [SaysLatest.settle_assignment_eq h]
      exact Setting.renderAssignment_settle hs htypes a
    simp only [settle, emit, ha]
  | update u =>
    refine settlesWell_of_not_branch rfl fun ds page htypes h => ?_
    have hu : (page.setting style).renderUpdate (u.settle keyed) =
        (page.setting style).renderUpdate u := by
      rw [Update.settle, SaysLatest.settle_eq h]
      exact Setting.renderUpdate_settle hs htypes u
    simp only [settle, emit, hu]
  | expression p e | call p e =>
    refine settlesWell_of_not_branch rfl fun ds page htypes h => ?_
    have he : (page.setting style).renderStatement (e.settle keyed) =
        (page.setting style).renderStatement e := by
      rw [SaysLatest.settle_eq h]
      exact Setting.renderStatement_settle hs htypes e
    simp only [settle, emit, he]
  | ifElse p test consequent alternate ihconsequent ihalternate =>
    have helse : ∀ ds page, page.types = .ofDeclarations ds →
        SaysLatest keyed ds (elseMentions alternate) →
        emitElse style (settleElse keyed alternate) page = emitElse style alternate page := by
      intro ds page htypes h
      cases alternate with
      | none => rfl
      | some stmt => exact (ihalternate stmt rfl).2 ds page htypes h
    constructor
    · intro ds page htypes h
      have htest := Setting.render_of_saysLatest hs htypes (SaysLatest.left h) .whole
      have hbranches := SaysLatest.skip test.declarations_mentions h
      simp only [settle, emit, htest]
      refine bind_congr fun text => ?_
      rw [ihconsequent.1 ds (page.write _).deeper htypes hbranches.left]
      refine ((emit_meets style consequent).1 _).bind_congr fun page₁ hpage₁ => ?_
      rw [helse _ page₁.shallower (hpage₁.ofDeclarations htypes) hbranches.right]
    · intro ds page htypes h
      have htest := Setting.render_of_saysLatest hs htypes (SaysLatest.left h) .whole
      have hbranches := SaysLatest.skip test.declarations_mentions h
      simp only [settle, emitElse, htest]
      refine bind_congr fun text => ?_
      rw [ihconsequent.1 ds (page.write _).deeper htypes hbranches.left]
      refine ((emit_meets style consequent).1 _).bind_congr fun page₁ hpage₁ => ?_
      exact helse _ page₁.shallower (hpage₁.ofDeclarations htypes) hbranches.right
  | whileLoop p test body ih =>
    refine settlesWell_of_not_branch rfl fun ds page htypes h => ?_
    have htest := Setting.render_of_saysLatest hs htypes (SaysLatest.left h) .whole
    simp only [settle, emit, htest]
    refine bind_congr fun text => ?_
    rw [ih.1 ds (page.write _).deeper htypes (SaysLatest.skip test.declarations_mentions h)]
  | doWhileLoop p body test ih =>
    refine settlesWell_of_not_branch rfl fun ds page htypes h => ?_
    simp only [settle, emit]
    rw [ih.1 ds (page.write _).deeper htypes (SaysLatest.left h)]
    -- The test is written behind the body, with the types that the body leaves.
    refine ((emit_meets style body).1 _).bind_congr fun page₁ hpage₁ => ?_
    rw [SaysLatest.settle_eq (SaysLatest.right h), Expr.inverted_settle,
      Setting.render_settle hs (hpage₁.ofDeclarations htypes)]
  | forLoop p init test step body ih =>
    refine settlesWell_of_not_branch rfl fun ds page htypes h => ?_
    -- The whole head is written behind the declaration in it, and nothing else in it declares.
    have hdeclared := (page.meets_declareInit init).ofDeclarations htypes
    have hrest := SaysLatest.right h
    have hbehind := hrest.skip (Expr.declarations_optionMentions test)
    have hbody := hbehind.skip (ForUpdate.declarations_optionMentions step)
    simp only [settle, emit, Page.declareInit_settle]
    rw [SaysLatest.settle_init_eq (SaysLatest.left h), hrest.left.settle_option_eq,
      hbehind.left.settle_step_eq, Setting.forHead_settle hs hdeclared]
    refine bind_congr fun head => ?_
    rw [ih.1 _ ((page.declareInit init).write _).deeper hdeclared hbody]
  | unsupported kind => exact ⟨fun _ _ _ _ => rfl, fun _ _ _ _ => rfl⟩

end Stmt

end Settled

/-! ## Programs in turn -/

namespace Program

/-- The program was read from a text. -/
def IsRead (program : Program) : Prop :=
  ∃ text tokens, tokenize text = .ok tokens ∧ ofTokens tokens = .ok program

/-- Writes programs on one page, one after the other. -/
def emitInTurn (style : Style) (programs : List Program) (page : Page) :
    Except RenderError Page :=
  programs.foldlM (fun page program => program.emit style page) page

/-- Whether a removal is by key in a program.  The declarations in `earlier` come before the
program; of its own declarations those count that start before the variable. -/
def keyedAt (earlier : List Declaration) (program : Program) : Keys :=
  fun q n => keyedBehind (earlier ++ program.declarations.filter fun d => d.pos.Before q) n

/-- The programs with the removals of each settled by the declarations before, which may stand in
an earlier program. -/
def settleInTurn : List Declaration → List Program → List Program
  | _, [] => []
  | earlier, program :: programs =>
    program.settle (program.keyedAt earlier) ::
      settleInTurn (earlier ++ program.declarations) programs

theorem saysLatest_keyedAt {program : Program} (h : program.IsRead)
    (earlier : List Declaration) :
    SaysLatest (program.keyedAt earlier) earlier (Stmt.allMentions program.body) := by
  obtain ⟨text, tokens, htokens, hprogram⟩ := h
  have hordered := mentions_ordered htokens hprogram
  intro before q n after hcut
  rw [hcut] at hordered
  rw [keyedAt, declarations, hcut, Mention.declarations_before hordered]

variable {style : Style}

theorem emit_settle (hs : style ∈ Style.catalogue) {program : Program} (h : program.IsRead)
    {earlier : List Declaration} {page : Page} (htypes : page.types = .ofDeclarations earlier) :
    (program.settle (program.keyedAt earlier)).emit style page = program.emit style page :=
  Stmt.emitAll_settle (fun stmt _ => Stmt.settlesWell hs stmt) htypes
    (saysLatest_keyedAt h earlier)

theorem emitInTurn_settle (hs : style ∈ Style.catalogue) {programs : List Program}
    (h : ∀ program ∈ programs, program.IsRead) {earlier : List Declaration} {page : Page}
    (htypes : page.types = .ofDeclarations earlier) :
    emitInTurn style (settleInTurn earlier programs) page = emitInTurn style programs page := by
  induction programs generalizing earlier page with
  | nil => rfl
  | cons program programs ih =>
    have hmeets : Ensures (page.Meets (Stmt.allMentions program.body)) (program.emit style page) :=
      Stmt.emitAll_meets style (fun stmt _ => (Stmt.emit_meets style stmt).1) page
    rw [settleInTurn, emitInTurn, emitInTurn, List.foldlM_cons, List.foldlM_cons,
      emit_settle hs (h program List.mem_cons_self) htypes]
    refine hmeets.bind_congr fun page₁ hpage₁ => ?_
    exact ih (fun program' hprogram' => h program' (List.mem_cons_of_mem program hprogram'))
      (hpage₁.ofDeclarations htypes)

theorem emitInTurn_yields (hs : style ∈ Style.catalogue) {programs : List Program}
    (h : ∀ program ∈ programs, program.IsRead) (page : Page) :
    Yields (emitInTurn style programs page) := by
  induction programs generalizing page with
  | nil => exact .ok page
  | cons program programs ih =>
    obtain ⟨text, tokens, htokens, hprogram⟩ := h program List.mem_cons_self
    have hwell := wellFormed_of_admits (Token.scan_admits htokens) hprogram
    have hemit : Yields (program.emit style page) := Stmt.emitAll_yields
      (fun stmt hstmt => (Stmt.emit_yields (Style.isSound_of_mem hs) (hwell stmt hstmt)).1) page
    rw [emitInTurn, List.foldlM_cons]
    exact hemit.bind fun page₁ =>
      ih (fun program' hprogram' => h program' (List.mem_cons_of_mem program hprogram')) page₁

/-- **Removals by the latest declaration.**  Programs that were read from texts can be written one
after the other on one page, and the page is the same if all their removals `r.remove(k)` from
variables are settled before.  A removal is settled by the last declaration of its variable that
starts before it, in the same program or in an earlier one: it is by key if the type of the
declaration contains `Map` or, without a declaration, if the name contains `map` in letters of any
case.  Once it is settled, the text of a removal is `remove r[k]` if it is by key and
`r.removeItemAt(k)` otherwise, whatever types are on the page. -/
theorem removals_by_latest_declaration (hs : style ∈ Style.catalogue) {programs : List Program}
    (h : ∀ program ∈ programs, program.IsRead) :
    (∃ page, emitInTurn style programs (.blank style) = .ok page ∧
      emitInTurn style (settleInTurn [] programs) (.blank style) = .ok page) ∧
    (∀ program ∈ programs, program.declarations.Pairwise fun d d' => d.pos.Before d'.pos) ∧
    ∀ types slot keyed p q r k,
      (Setting.mk style types).render slot
          ((Expr.methodCall p (.name q r) "remove" [k]).settle keyed) =
        ((Setting.mk style types).render .whole (k.settle keyed)).map
          (removalText (keyed q r) r) := by
  refine ⟨?_, ?_, ?_⟩
  · obtain ⟨page, hpage⟩ := emitInTurn_yields hs h (.blank style)
    exact ⟨page, hpage, (emitInTurn_settle hs h rfl).trans hpage⟩
  · intro program hprogram
    obtain ⟨text, tokens, htokens, hread⟩ := h program hprogram
    exact declarations_ordered htokens hread
  · intro types slot keyed p q r k
    exact Setting.render_removal hs slot (keyed q r) p q r (k.settle keyed)

/-- A map with a removal. -/
def mapSource : String :=
  "TreeMap m; m.remove(a);"

def mapTokens : List Token :=
  [⟨.identifier, "TreeMap", ⟨1, 1⟩⟩, ⟨.identifier, "m", ⟨1, 9⟩⟩, ⟨.semicolon, ";", ⟨1, 10⟩⟩,
    ⟨.identifier, "m", ⟨1, 12⟩⟩, ⟨.dot, ".", ⟨1, 13⟩⟩, ⟨.identifier, "remove", ⟨1, 14⟩⟩,
    ⟨.paren, "(", ⟨1, 20⟩⟩, ⟨.identifier, "a", ⟨1, 21⟩⟩, ⟨.paren, ")", ⟨1, 22⟩⟩,
    ⟨.semicolon, ";", ⟨1, 23⟩⟩, ⟨.eof, "", ⟨1, 24⟩⟩]

def mapProgram : Program :=
  ⟨⟨1, 1⟩, [.declaration ⟨⟨1, 1⟩, "m", "TreeMap", 0, none⟩,
    .call ⟨1, 12⟩ (.methodCall ⟨1, 12⟩ (.name ⟨1, 12⟩ "m") "remove" [.name ⟨1, 21⟩ "a"])]⟩

/-- The same variable before and after it is declared again, for an input device that does not
show, and a variable without a declaration. -/
def deviceSource : String :=
  "m.remove(b); Scanner m; m.remove(c); roadMap.remove(d);"

def deviceTokens : List Token :=
  [⟨.identifier, "m", ⟨1, 1⟩⟩, ⟨.dot, ".", ⟨1, 2⟩⟩, ⟨.identifier, "remove", ⟨1, 3⟩⟩,
    ⟨.paren, "(", ⟨1, 9⟩⟩, ⟨.identifier, "b", ⟨1, 10⟩⟩, ⟨.paren, ")", ⟨1, 11⟩⟩,
    ⟨.semicolon, ";", ⟨1, 12⟩⟩, ⟨.identifier, "Scanner", ⟨1, 14⟩⟩, ⟨.identifier, "m", ⟨1, 22⟩⟩,
    ⟨.semicolon, ";", ⟨1, 23⟩⟩, ⟨.identifier, "m", ⟨1, 25⟩⟩, ⟨.dot, ".", ⟨1, 26⟩⟩,
    ⟨.identifier, "remove", ⟨1, 27⟩⟩, ⟨.paren, "(", ⟨1, 33⟩⟩, ⟨.identifier, "c", ⟨1, 34⟩⟩,
    ⟨.paren, ")", ⟨1, 35⟩⟩, ⟨.semicolon, ";", ⟨1, 36⟩⟩, ⟨.identifier, "roadMap", ⟨1, 38⟩⟩,
    ⟨.dot, ".", ⟨1, 45⟩⟩, ⟨.identifier, "remove", ⟨1, 46⟩⟩, ⟨.paren, "(", ⟨1, 52⟩⟩,
    ⟨.identifier, "d", ⟨1, 53⟩⟩, ⟨.paren, ")", ⟨1, 54⟩⟩, ⟨.semicolon, ";", ⟨1, 55⟩⟩,
    ⟨.eof, "", ⟨1, 56⟩⟩]

def deviceProgram : Program :=
  ⟨⟨1, 1⟩, [
    .call ⟨1, 1⟩ (.methodCall ⟨1, 1⟩ (.name ⟨1, 1⟩ "m") "remove" [.name ⟨1, 10⟩ "b"]),
    .declaration ⟨⟨1, 14⟩, "m", "Scanner", 0, none⟩,
    .call ⟨1, 25⟩ (.methodCall ⟨1, 25⟩ (.name ⟨1, 25⟩ "m") "remove" [.name ⟨1, 34⟩ "c"]),
    .call ⟨1, 38⟩ (.methodCall ⟨1, 38⟩ (.name ⟨1, 38⟩ "roadMap") "remove" [.name ⟨1, 53⟩ "d"])]⟩

/-- One variable is a map in the first program, and in the second one up to its declaration. -/
theorem removals_by_latest_declaration_redeclared :
    Style.capital "sc-01" ∈ Style.catalogue ∧ mapProgram.IsRead ∧ deviceProgram.IsRead ∧
      ∃ page, emitInTurn (.capital "sc-01") [mapProgram, deviceProgram]
          (.blank (.capital "sc-01")) = .ok page ∧
        emitInTurn (.capital "sc-01") (settleInTurn [] [mapProgram, deviceProgram])
          (.blank (.capital "sc-01")) = .ok page ∧
        page.sheet.lines.map Line.text = ["m", "remove m[a]", "remove m[b]",
          "m.removeItemAt(c)", "remove roadMap[d]"] := by
  have hstyle : Style.capital "sc-01" ∈ Style.catalogue := by decide
  have hmap : mapProgram.IsRead :=
    ⟨mapSource, mapTokens, by decide +kernel, rfl⟩
  have hdevice : deviceProgram.IsRead :=
    ⟨deviceSource, deviceTokens, by decide +kernel, rfl⟩
  have hread : ∀ program ∈ [mapProgram, deviceProgram], program.IsRead := by
    simp [hmap, hdevice]
  have hlines : (emitInTurn (.capital "sc-01") [mapProgram, deviceProgram]
      (.blank (.capital "sc-01"))).map (fun page => page.sheet.lines.map Line.text) =
      .ok ["m", "remove m[a]", "remove m[b]", "m.removeItemAt(c)", "remove roadMap[d]"] := by
    decide
  obtain ⟨⟨page, hpage, hsettled⟩, -⟩ := removals_by_latest_declaration hstyle hread
  rw [hpage] at hlines
  exact ⟨hstyle, hmap, hdevice, page, hpage, hsettled, Except.ok.inj hlines⟩

end Program

end Pseudocode
