import Pseudocode.Proofs.Loop.HeaderSpots
import Pseudocode.Proofs.Render.Places
set_option autoImplicit false

/-!
# Two pages side by side

Two programs that differ in one sign are written line by line alike, but for the one line that the
sign is in.  What stands on a page already has no bearing on the lines that follow, so the lines
behind that one are the same again.
-/

namespace Pseudocode

theorem ok_bind {ε α β : Type} (a : α) (f : α → Except ε β) : (Except.ok a >>= f) = f a := rfl

namespace Page

/-- The page with more lines before all others. -/
def below (lines : List Line) (page : Page) : Page :=
  { page with sheet := { page.sheet with lines := lines ++ page.sheet.lines } }

section Below

variable (lines : List Line) (page : Page)

theorem below_write (text : String) :
    (page.below lines).write text = (page.write text).below lines := by
  simp [below, write, Sheet.write]

theorem below_deeper : (page.below lines).deeper = page.deeper.below lines := rfl

theorem below_shallower : (page.below lines).shallower = page.shallower.below lines := rfl

theorem below_declare (name typeName : String) :
    (page.below lines).declare name typeName = (page.declare name typeName).below lines := rfl

theorem below_declareInit (init : Option ForInit) :
    (page.below lines).declareInit init = (page.declareInit init).below lines := rfl

theorem below_setting (style : Style) : (page.below lines).setting style = page.setting style := rfl

end Below

/-- A way of writing goes on below whatever stands on the page. -/
def Carries (f : Page → Except RenderError Page) : Prop :=
  ∀ lines page page', f page = .ok page' → f (page.below lines) = .ok (page'.below lines)

/-- A line that is worked out from the style and the types of variables. -/
theorem Carries.line (style : Style) (x : Setting → Except RenderError String)
    (k : String → String) :
    Carries fun page => x (page.setting style) >>= fun text => .ok (page.write (k text)) := by
  intro lines page page' h
  obtain ⟨text, htext, h⟩ := exists_of_bind h
  obtain rfl := Except.ok.inj h
  simp only [below_setting, htext, ok_bind, below_write]

end Page

open Page (Carries below_write below_deeper below_shallower below_declare below_declareInit
  below_setting)

theorem Declaration.emit_carries (style : Style) (d : Declaration) : Carries (d.emit style) := by
  intro lines page page' h
  obtain ⟨p, name, typeName, dims, value⟩ := d
  simp only [emit, below_declare] at h ⊢
  generalize page.declare name typeName = declared at h ⊢
  cases hdevice : deviceTypes.contains typeName with
  | true =>
    simp only [hdevice, if_true] at h ⊢
    obtain rfl := Except.ok.inj h
    rfl
  | false =>
    simp only [hdevice] at h ⊢
    cases value with
    | none =>
      obtain rfl := Except.ok.inj h
      exact congrArg Except.ok (below_write ..)
    | some value =>
      cases hread : value.isInputCall with
      | true =>
        simp only [hread, if_true] at h ⊢
        obtain rfl := Except.ok.inj h
        exact congrArg Except.ok (below_write ..)
      | false =>
        simp only [hread] at h ⊢
        obtain ⟨text, htext, h⟩ := exists_of_bind h
        obtain rfl := Except.ok.inj h
        simp only [below_setting, htext, ok_bind, below_write]
        rfl

namespace Stmt

variable {style : Style}

theorem emitAll_carries {stmts : List Stmt} (h : ∀ stmt ∈ stmts, Carries (emit style stmt)) :
    Carries (emitAll style stmts) := by
  induction stmts with
  | nil =>
    intro lines page page' hpage
    obtain rfl := Except.ok.inj hpage
    rfl
  | cons stmt stmts ih =>
    intro lines page page' hpage
    obtain ⟨middle, hmiddle, hpage⟩ := exists_of_bind hpage
    rw [emitAll, h stmt List.mem_cons_self lines page middle hmiddle]
    exact ih (fun a ha => h a (List.mem_cons_of_mem stmt ha)) lines middle page' hpage

/-- Writing a statement goes on, and so does writing it behind `else`. -/
def EmitsBelow (style : Style) (stmt : Stmt) : Prop :=
  Carries (emit style stmt) ∧ Carries (emitElse style (some stmt))

theorem EmitsBelow.of_emit {stmt : Stmt} (hbranch : stmt.isBranch = false)
    (h : Carries (emit style stmt)) : EmitsBelow style stmt := by
  refine ⟨h, ?_⟩
  intro lines page page' hpage
  rw [emitElse_eq style hbranch] at hpage ⊢
  obtain ⟨inner, hinner, hpage⟩ := exists_of_bind hpage
  obtain rfl := Except.ok.inj hpage
  rw [below_write, below_deeper, h lines _ inner hinner]
  rfl

theorem emit_carries (stmt : Stmt) : EmitsBelow style stmt := by
  induction stmt with
  | block p body ih => exact .of_emit rfl (emitAll_carries fun stmt hstmt => (ih stmt hstmt).1)
  | declaration d => exact .of_emit rfl (d.emit_carries style)
  | assignment a => exact .of_emit rfl (Carries.line style (·.renderAssignment a) id)
  | update u => exact .of_emit rfl (Carries.line style (·.renderUpdate u) id)
  | expression p e | call p e => exact .of_emit rfl (Carries.line style (·.renderStatement e) id)
  | whileLoop p test body ih =>
    refine .of_emit rfl fun lines page page' h => ?_
    obtain ⟨text, htext, h⟩ := exists_of_bind h
    obtain ⟨inner, hinner, h⟩ := exists_of_bind h
    obtain rfl := Except.ok.inj h
    simp only [emit, below_setting, htext, ok_bind, below_write, below_deeper,
      ih.1 lines _ inner hinner, below_shallower]
    rfl
  | doWhileLoop p body test ih =>
    refine .of_emit rfl fun lines page page' h => ?_
    obtain ⟨inner, hinner, h⟩ := exists_of_bind h
    obtain ⟨text, htext, h⟩ := exists_of_bind h
    obtain rfl := Except.ok.inj h
    simp only [emit, below_write, below_deeper, ih.1 lines _ inner hinner, ok_bind, below_shallower,
      below_setting, htext, ok_bind, below_write]
    rfl
  | forLoop p init test step body ih =>
    refine .of_emit rfl fun lines page page' h => ?_
    obtain ⟨head, hhead, h⟩ := exists_of_bind h
    obtain ⟨inner, hinner, h⟩ := exists_of_bind h
    obtain rfl := Except.ok.inj h
    simp only [emit, below_declareInit, below_setting, hhead, ok_bind, below_write, below_deeper,
      ih.1 lines _ inner hinner, ok_bind, below_shallower, below_write]
    rfl
  | ifElse p test consequent alternate ihconsequent ihalternate =>
    have helse : Carries (emitElse style alternate) := by
      cases alternate with
      | none =>
        intro lines page page' h
        obtain rfl := Except.ok.inj h
        rfl
      | some stmt => exact (ihalternate stmt rfl).2
    constructor
    · intro lines page page' h
      obtain ⟨text, htext, h⟩ := exists_of_bind h
      obtain ⟨inner, hinner, h⟩ := exists_of_bind h
      obtain ⟨last, hlast, h⟩ := exists_of_bind h
      obtain rfl := Except.ok.inj h
      simp only [emit, below_setting, htext, ok_bind, below_write, below_deeper,
        ihconsequent.1 lines _ inner hinner, ok_bind, below_shallower, helse lines _ last hlast,
        ok_bind, below_write]
      rfl
    · intro lines page page' h
      obtain ⟨text, htext, h⟩ := exists_of_bind h
      obtain ⟨inner, hinner, h⟩ := exists_of_bind h
      simp only [emitElse, below_setting, htext, ok_bind, below_write, below_deeper,
        ihconsequent.1 lines _ inner hinner, ok_bind, below_shallower]
      exact helse lines _ page' h
  | unsupported kind => exact .of_emit rfl (by rintro lines page page' ⟨⟩)

end Stmt

/-! ## Pages that differ in one line -/

/-- The pages are the same but for one line, or the same altogether, and the texts of that line are
the same just when `same` holds. -/
inductive Page.Apart (same : Prop) : Page → Page → Prop where
  | alike (page : Page) (h : same) : Apart same page page
  | line (page : Page) (before : List Line) (depth : Int) (a b : String) (behind : List Line)
      (h : a = b ↔ same) :
      Apart same (page.below (before ++ ⟨depth, a⟩ :: behind))
        (page.below (before ++ ⟨depth, b⟩ :: behind))

theorem Line.layout_inj (unit : String) (depth : Int) (a b : String) :
    Line.layout unit ⟨depth, a⟩ = Line.layout unit ⟨depth, b⟩ ↔ a = b := by
  have hempty : ∀ {text : String}, text ≠ "" →
      Line.layout unit ⟨depth, text⟩ = Text.repeated unit depth ++ text ∧
        Line.layout unit ⟨depth, text⟩ ≠ "" := by
    intro text htext
    have hlayout : Line.layout unit ⟨depth, text⟩ = Text.repeated unit depth ++ text :=
      if_neg htext
    exact ⟨hlayout, by simp [hlayout, htext]⟩
  by_cases ha : a = ""
  · subst ha
    by_cases hb : b = ""
    · simp [hb]
    · exact iff_of_false (hempty hb).2.symm (Ne.symm hb)
  · by_cases hb : b = ""
    · subst hb
      exact iff_of_false (hempty ha).2 ha
    · rw [(hempty ha).1, (hempty hb).1, String.append_right_inj]

namespace Page.Apart

variable {same : Prop} {page page' : Page}

/-- Two texts, each on a page like the other. -/
theorem write (page : Page) {a b : String} (h : a = b ↔ same) :
    Apart same (page.write a) (page.write b) := by
  have hwrite : ∀ text, page.write text =
      ({ page with sheet := { page.sheet with lines := [] } } : Page).below
        (page.sheet.lines ++ [⟨page.sheet.depth, text⟩]) := by
    intro text
    simp [Page.write, Sheet.write, below]
  rw [hwrite a, hwrite b]
  exact .line _ page.sheet.lines page.sheet.depth a b [] h

/-- What is written below is the same on both pages. -/
theorem carry {f : Page → Except RenderError Page} (h : Apart same page page') (hf : Carries f)
    (hyields : ∀ page, Yields (f page)) : Both (Apart same) (f page) (f page') := by
  cases h with
  | alike page hsame =>
    obtain ⟨last, hlast⟩ := hyields page
    exact ⟨last, last, hlast, hlast, .alike last hsame⟩
  | line page before depth a b behind hab =>
    obtain ⟨last, hlast⟩ := hyields page
    exact ⟨_, _, hf _ page last hlast, hf _ page last hlast, .line last before depth a b behind hab⟩

/-- A change that is the same for both pages. -/
theorem map {k : Page → Page} (h : Apart same page page')
    (hk : ∀ lines page, k (page.below lines) = (k page).below lines) :
    Apart same (k page) (k page') := by
  cases h with
  | alike page hsame => exact .alike _ hsame
  | line page before depth a b behind hab =>
    rw [hk, hk]
    exact .line _ before depth a b behind hab

theorem deeper (h : Apart same page page') : Apart same page.deeper page'.deeper :=
  h.map below_deeper

theorem shallower (h : Apart same page page') : Apart same page.shallower page'.shallower :=
  h.map below_shallower

/-- One more line, on both pages. -/
theorem line_below (h : Apart same page page') (text : String) :
    Apart same (page.write text) (page'.write text) :=
  h.map (k := fun page => page.write text) fun lines page => below_write lines page text

/-- The texts of the pages are the same just when those of the line are. -/
theorem output_eq_iff (h : Apart same page page') : page.output = page'.output ↔ same := by
  cases h with
  | alike page hsame => exact iff_of_true rfl hsame
  | line page before depth a b behind hab =>
    simp only [output, Sheet.output, below, List.map_append, List.map_cons, List.append_assoc,
      List.cons_append]
    rw [Text.join_inj, Line.layout_inj, hab]

end Page.Apart

open Page (Apart)

/-! ## Statements that differ in one sign -/

/-- The spot of a gap in a statement. -/
def Stmt.Gap.spot (style : Style) (x : Sign) : Stmt.Gap → Spot
  | .block _ _ gap _ => gap.spot style x
  | .declaration d gap =>
    if deviceTypes.contains d.typeName || (gap.fill x.assigned).isInputCall then .unwritten
    else gap.spot style x.assigned (.written .value)
  | .target a gap =>
    (Expr.Gap.target a.pos gap a.op a.value).spot style x.assigned (.written .whole)
  | .value a gap =>
    (Expr.Gap.value a.pos a.target a.op gap).spot style x.assigned (.written .whole)
  | .update _ gap => gap.spot style x.assigned .enclosed
  | .expression _ gap => gap.statementSpot style x.assigned
  | .call _ gap => gap.statementSpot style x.assigned
  | .test _ gap _ _ => gap.spot style x.assigned (.written .whole)
  | .consequent _ _ gap _ => gap.spot style x
  | .alternate _ _ _ gap => gap.spot style x
  | .whileTest _ gap _ => gap.spot style x.assigned (.written .whole)
  | .whileBody _ _ gap => gap.spot style x
  | .doBody _ gap _ => gap.spot style x
  | .doTest _ _ gap => gap.invertedSpot style x.assigned
  | .header p gap _ => gap.spot style x p
  | .forBody _ _ gap => gap.spot style x

namespace Stmt

variable {style : Style} {same : Prop} {stmt stmt' : Stmt} {x : Sign}

/-- The two statements are written alike but for one line, on their own and behind `else`. -/
def EmitsApart (style : Style) (same : Prop) (stmt stmt' : Stmt) : Prop :=
  (∀ page, Both (Apart same) (emit style stmt page) (emit style stmt' page)) ∧
    ∀ page, Both (Apart same) (emitElse style (some stmt) page) (emitElse style (some stmt') page)

theorem EmitsApart.of_emit (hbranch : stmt.isBranch = false) (hbranch' : stmt'.isBranch = false)
    (h : ∀ page, Both (Apart same) (emit style stmt page) (emit style stmt' page)) :
    EmitsApart style same stmt stmt' := by
  refine ⟨h, fun page => ?_⟩
  rw [emitElse_eq style hbranch, emitElse_eq style hbranch']
  exact (h _).bind fun inner inner' hinner => .ok hinner.shallower

theorem emitAll_apart {before behind : List Stmt}
    (hbefore : ∀ d ∈ before, ∀ page, Yields (emit style d page))
    (h : ∀ page, Both (Apart same) (emit style stmt page) (emit style stmt' page))
    (hbehind : ∀ d ∈ behind, ∀ page, Yields (emit style d page)) (page : Page) :
    Both (Apart same) (emitAll style (before ++ stmt :: behind) page)
      (emitAll style (before ++ stmt' :: behind) page) := by
  induction before generalizing page with
  | nil =>
    refine (h page).bind fun inner inner' hinner => ?_
    exact hinner.carry (emitAll_carries fun d _ => (emit_carries d).1) (emitAll_yields hbehind)
  | cons d before ih =>
    refine .same (hbefore d List.mem_cons_self page) fun inner => ?_
    exact ih (fun d' hd' => hbefore d' (List.mem_cons_of_mem d hd')) inner

/-- A statement of one line. -/
theorem line_apart {page : Page} {f g : Except RenderError String} (h : TellsApart same f g) :
    Both (Apart same) (f >>= fun text => .ok (page.write text))
      (g >>= fun text => .ok (page.write text)) :=
  h.bind fun _ _ hab => .ok (.write page hab)

/-- A line that opens a body which is the same. -/
theorem body_apart (hs : style ∈ Style.catalogue) {body : Stmt} (hbody : body.WellFormed .lexical)
    {page : Page} {a b : String} (h : a = b ↔ same) :
    Both (Apart same) (emit style body (page.write a).deeper)
      (emit style body (page.write b).deeper) :=
  (Apart.write page h).deeper.carry (emit_carries body).1
    (emit_yields (Style.isSound_of_mem hs) hbody).1

theorem emitElse_carries (alternate : Option Stmt) : Carries (emitElse style alternate) := by
  cases alternate with
  | none =>
    intro lines page page' h
    obtain rfl := Except.ok.inj h
    rfl
  | some stmt => exact (emit_carries stmt).2

theorem emitElse_yields (hs : style ∈ Style.catalogue) {alternate : Option Stmt}
    (h : OptionWellFormed .lexical alternate) (page : Page) :
    Yields (emitElse style alternate page) := by
  cases alternate with
  | none => exact .ok page
  | some stmt => exact (emit_yields (Style.isSound_of_mem hs) h).2 page

/-- A declaration with a gap. -/
theorem declaration_fill (hs : style ∈ Style.catalogue) (d : Declaration) (gap : Expr.Gap)
    (h : (gap.fill x.assigned).WellFormed .lexical) :
    ∀ same ∈ ((Gap.declaration d gap).spot style x).alike? style x,
      EmitsApart style (same = true) ((Gap.declaration d gap).fill x.assigned)
        ((Gap.declaration d gap).fill x.compared) := by
  intro same hsame
  refine .of_emit rfl rfl fun page => ?_
  obtain ⟨p, name, typeName, dims, value⟩ := d
  simp only [Gap.spot] at hsame
  simp only [Gap.fill, emit, Declaration.emit]
  generalize page.declare name typeName = declared
  cases hdevice : deviceTypes.contains typeName with
  | true =>
    simp only [hdevice, Bool.true_or, if_true] at hsame ⊢
    obtain rfl := Option.some.inj hsame
    exact .ok (.alike _ rfl)
  | false =>
    simp only [hdevice, Bool.false_or] at hsame ⊢
    rw [← gap.isInputCall_fill]
    cases hread : (gap.fill x.assigned).isInputCall with
    | true =>
      simp only [hread, if_true] at hsame ⊢
      obtain rfl := Option.some.inj hsame
      exact .ok (.alike _ rfl)
    | false =>
      simp only [hread] at hsame ⊢
      have hvalue := Setting.render_fill (s := declared.setting style) hs gap (.written .value) rfl
        h rfl rfl same hsame
      exact hvalue.bind fun a b hab => .ok (.write _ (by simp [hab]))

/-- The types of variables do not depend on what is in the gap. -/
theorem declareInit_fill (page : Page) (gap : Header.Gap) :
    page.declareInit (gap.fill x.assigned).init = page.declareInit (gap.fill x.compared).init := by
  cases gap with
  | init gap => cases gap <;> rfl
  | _ => rfl

theorem emit_fill (hs : style ∈ Style.catalogue) (gap : Gap)
    (h : (gap.fill x.assigned).WellFormed .lexical) :
    ∀ same ∈ (gap.spot style x).alike? style x,
      EmitsApart style (same = true) (gap.fill x.assigned) (gap.fill x.compared) := by
  have hsound := Style.isSound_of_mem hs
  induction gap with
  | block p before gap behind ih =>
    intro same hsame
    have hbody := allWellFormed_iff.mp h
    have hyields : ∀ d ∈ before ++ gap.fill x.assigned :: behind, ∀ page,
        Yields (emit style d page) := fun d hd => (emit_yields hsound (hbody d hd)).1
    have hgap := ih (hbody _ (by simp)) same hsame
    exact .of_emit rfl rfl (emitAll_apart (fun d hd => hyields d (by simp [hd])) hgap.1
      fun d hd => hyields d (by simp [hd]))
  | declaration d gap => exact declaration_fill hs d gap (h.2.2 _ rfl)
  | target a gap =>
    intro same hsame
    refine .of_emit rfl rfl fun page => ?_
    exact line_apart (Setting.render_fill hs (.target a.pos gap a.op a.value) (.written .whole) rfl
      h rfl rfl same hsame)
  | value a gap =>
    intro same hsame
    refine .of_emit rfl rfl fun page => ?_
    exact line_apart (Setting.render_fill hs (.value a.pos a.target a.op gap) (.written .whole) rfl
      h rfl rfl same hsame)
  | update u gap =>
    intro same hsame
    refine .of_emit rfl rfl fun page => ?_
    exact line_apart (Setting.renderUpdate_fill hs h.2.1 same hsame)
  | expression p gap | call p gap =>
    intro same hsame
    refine .of_emit rfl rfl fun page => ?_
    exact line_apart (Setting.renderStatement_fill hs gap h same hsame)
  | test p gap yes no =>
    intro same hsame
    have htest : ∀ page : Page, TellsApart (same = true)
        ((page.setting style).render .whole (gap.fill x.assigned))
        ((page.setting style).render .whole (gap.fill x.compared)) := fun page =>
      Setting.render_fill hs gap (.written .whole) rfl h.1 rfl rfl same hsame
    have hhead : ∀ word a b, (style.branchHead word a = style.branchHead word b) ↔ a = b := by
      simp [Style.branchHead]
    constructor
    · intro page
      refine (htest page).bind fun a b hab => ?_
      refine (body_apart hs h.2.1 ((hhead _ a b).trans hab)).bind fun inner inner' hinner => ?_
      refine (hinner.shallower.carry (emitElse_carries no)
        (emitElse_yields hs h.2.2)).bind fun last last' hlast => ?_
      exact .ok (hlast.line_below _)
    · intro page
      refine (htest page).bind fun a b hab => ?_
      refine (body_apart hs h.2.1 ((hhead _ a b).trans hab)).bind fun inner inner' hinner => ?_
      exact hinner.shallower.carry (emitElse_carries no) (emitElse_yields hs h.2.2)
  | consequent p c gap no ih =>
    intro same hsame
    have htest : ∀ page : Page, Yields ((page.setting style).render .whole c) := fun page =>
      Setting.render_yields hsound h.1 .whole
    have hgap := ih h.2.1 same hsame
    constructor
    · intro page
      refine .same (htest page) fun text => ?_
      refine (hgap.1 _).bind fun inner inner' hinner => ?_
      refine (hinner.shallower.carry (emitElse_carries no)
        (emitElse_yields hs h.2.2)).bind fun last last' hlast => ?_
      exact .ok (hlast.line_below _)
    · intro page
      refine .same (htest page) fun text => ?_
      refine (hgap.1 _).bind fun inner inner' hinner => ?_
      exact hinner.shallower.carry (emitElse_carries no) (emitElse_yields hs h.2.2)
  | alternate p c yes gap ih =>
    intro same hsame
    have htest : ∀ page : Page, Yields ((page.setting style).render .whole c) := fun page =>
      Setting.render_yields hsound h.1 .whole
    have hyes := (emit_yields hsound h.2.1).1
    have hgap := ih h.2.2 same hsame
    constructor
    · intro page
      refine .same (htest page) fun text => ?_
      refine .same (hyes _) fun inner => ?_
      refine (hgap.2 _).bind fun last last' hlast => ?_
      exact .ok (hlast.line_below _)
    · intro page
      refine .same (htest page) fun text => ?_
      exact .same (hyes _) fun inner => hgap.2 _
  | whileTest p gap body =>
    intro same hsame
    refine .of_emit rfl rfl fun page => ?_
    have htest := Setting.render_fill (s := page.setting style) hs gap (.written .whole) rfl h.1 rfl
      rfl same hsame
    refine htest.bind fun a b hab => ?_
    have hhead : style.whileHead a = style.whileHead b ↔ a = b := by
      unfold Style.whileHead
      split <;> simp
    refine (body_apart hs h.2 (hhead.trans hab)).bind fun inner inner' hinner => ?_
    exact .ok (hinner.shallower.line_below _)
  | whileBody p c gap ih =>
    intro same hsame
    refine .of_emit rfl rfl fun page => ?_
    refine .same (Setting.render_yields hsound h.1 .whole) fun text => ?_
    refine ((ih h.2 same hsame).1 _).bind fun inner inner' hinner => ?_
    exact .ok (hinner.shallower.line_below _)
  | doBody p gap c ih =>
    intro same hsame
    refine .of_emit rfl rfl fun page => ?_
    refine ((ih h.1 same hsame).1 _).bind fun inner inner' hinner => ?_
    refine hinner.shallower.carry (Carries.line style (·.render .whole c.inverted) _) fun page => ?_
    exact (Setting.render_yields hsound (Expr.inverted_wellFormed h.2) .whole).bind fun _ => .ok _
  | doTest p body gap =>
    intro same hsame
    refine .of_emit rfl rfl fun page => ?_
    refine .same ((emit_yields hsound h.1).1 _) fun inner => ?_
    have htest := Setting.render_inverted_fill (s := inner.shallower.setting style) hs gap h.2 same
      hsame
    exact htest.bind fun a b hab => .ok (.write _ (by simp [hab]))
  | header p gap body =>
    intro same hsame
    obtain ⟨hinit, htest, hupdate, hbody⟩ := h
    refine .of_emit rfl rfl fun page => ?_
    simp only [Gap.fill, emit]
    rw [← declareInit_fill]
    have hhead := Setting.forHead_fill
      (s := (page.declareInit (gap.fill x.assigned).init).setting style) hs p gap
      ⟨hinit, htest, hupdate⟩ same hsame
    refine hhead.bind fun a b hab => ?_
    refine (body_apart hs hbody hab).bind fun inner inner' hinner => ?_
    exact .ok (hinner.shallower.line_below _)
  | forBody p head gap ih =>
    intro same hsame
    obtain ⟨hinit, htest, hupdate, hbody⟩ := h
    refine .of_emit rfl rfl fun page => ?_
    refine .same (Setting.forHead_yields hsound p hinit htest hupdate) fun text => ?_
    refine ((ih hbody same hsame).1 _).bind fun inner inner' hinner => ?_
    exact .ok (hinner.shallower.line_below _)

end Stmt

end Pseudocode
