import Pseudocode.Proofs.Render.Lines
import Pseudocode.Proofs.Render.Places
import Pseudocode.Proofs.Source.Location
set_option autoImplicit false

/-!
# Outlines

How many lines a statement takes and how deep each of them stands does not depend on the
style: it is the outline of the statement.  What is written on a page for a statement is
laid out by its outline, and the text of the page shows the outline in the blanks at the
front of its lines.
-/

namespace Pseudocode

open Text (OneLine Solid)

/-! ## The outline of a program -/

namespace Stmt

mutual

/-- The depths of the lines of a statement, seen from where it stands. -/
def outline : Stmt → List Nat
  | .block _ body => outlineAll body
  | .declaration d => if deviceTypes.contains d.typeName then [] else [0]
  | .assignment _ | .update _ | .expression .. | .call .. => [0]
  | .ifElse _ _ consequent alternate =>
    0 :: (outline consequent).map (· + 1) ++ outlineElse alternate ++ [0]
  | .whileLoop _ _ body | .doWhileLoop _ body _ | .forLoop _ _ _ _ body =>
    0 :: (outline body).map (· + 1) ++ [0]
  | .unsupported _ => []

/-- The depths of the lines of statements one after the other. -/
def outlineAll : List Stmt → List Nat
  | [] => []
  | stmt :: stmts => outline stmt ++ outlineAll stmts

/-- The depths of the lines behind `else`: a further branch stands as deep as the first
one. -/
def outlineElse : Option Stmt → List Nat
  | none => []
  | some stmt =>
    match stmt with
    | .ifElse _ _ consequent alternate =>
      0 :: (outline consequent).map (· + 1) ++ outlineElse alternate
    | stmt => 0 :: (outline stmt).map (· + 1)

end

end Stmt

/-- The depths of the lines of a program. -/
def Program.outline (program : Program) : List Nat :=
  Stmt.outlineAll program.body

/-! ## Pages that are laid out by an outline -/

/-- The second page is the first one with more lines on it: solid ones, at the given depths
below that of the page. -/
structure Page.LaidOut (depths : List Nat) (page page' : Page) : Prop where
  unit : page'.sheet.unit = page.sheet.unit
  depth : page'.sheet.depth = page.sheet.depth
  lines : ∃ lines, page'.sheet.lines = page.sheet.lines ++ lines ∧
    lines.map Line.depth = depths.map (fun (d : Nat) => page.sheet.depth + d) ∧
    ∀ line ∈ lines, Solid line.text

namespace Page.LaidOut

variable {page page' page'' : Page} {ds es : List Nat}

theorem refl (page : Page) : LaidOut [] page page :=
  ⟨rfl, rfl, [], by simp, rfl, by simp⟩

theorem trans (h : LaidOut ds page page') (h' : LaidOut es page' page'') :
    LaidOut (ds ++ es) page page'' := by
  obtain ⟨lines, hlines, hdepths, hsolid⟩ := h.lines
  obtain ⟨lines', hlines', hdepths', hsolid'⟩ := h'.lines
  refine ⟨h'.unit.trans h.unit, h'.depth.trans h.depth, lines ++ lines', ?_, ?_, ?_⟩
  · rw [hlines', hlines, List.append_assoc]
  · rw [List.map_append, List.map_append, hdepths, hdepths', h.depth]
  · intro line hline
    rcases List.mem_append.mp hline with hline | hline
    · exact hsolid line hline
    · exact hsolid' line hline

/-- One line. -/
theorem write (page : Page) {text : String} (h : Solid text) :
    LaidOut [0] page (page.write text) :=
  ⟨rfl, rfl, [⟨page.sheet.depth, text⟩], rfl, by simp, by simpa using h⟩

/-- Lines one step deeper. -/
theorem nested (h : LaidOut ds page.deeper page') :
    LaidOut (ds.map (· + 1)) page page'.shallower := by
  have hdepth : page'.sheet.depth = page.sheet.depth + 1 := h.depth
  obtain ⟨lines, hlines, hdepths, hsolid⟩ := h.lines
  refine ⟨h.unit, ?_, lines, hlines, ?_, hsolid⟩
  · show page'.sheet.depth + -1 = page.sheet.depth
    omega
  · rw [hdepths, List.map_map]
    apply List.map_congr_left
    intro d _
    show page.sheet.depth + 1 + (d : Int) = page.sheet.depth + ((d + 1 : Nat) : Int)
    omega

/-- What is noted about variables does not show. -/
theorem of_sheet_eq {page₀ : Page} (h : LaidOut ds page₀ page')
    (hsheet : page₀.sheet = page.sheet) : LaidOut ds page page' := by
  obtain ⟨hunit, hdepth, lines⟩ := h
  rw [hsheet] at hunit hdepth lines
  exact ⟨hunit, hdepth, lines⟩

end Page.LaidOut

open Page (LaidOut)

theorem Declaration.emit_laidOut {style : Style} (hs : style.SolidWords) {d : Declaration}
    (hd : d.WellFormed .lexical) (page : Page) :
    Ensures (LaidOut (Stmt.declaration d).outline page) (d.emit style page) := by
  have hname : Solid d.name := Vocabulary.solid_of_lexical hd.1 (by decide)
  have hline : ∀ {text : String}, Solid text →
      LaidOut [0] page ((page.declare d.name d.typeName).write text) :=
    fun htext => (LaidOut.write _ htext).of_sheet_eq rfl
  unfold emit Stmt.outline
  dsimp only
  split
  · exact .ok ((LaidOut.refl _).of_sheet_eq rfl)
  split
  · exact .ok (hline hname)
  · rename_i value hvalue
    split
    · have hinput : Solid style.keywords.input := hs.keyword (by simp [Keywords.written])
      exact .ok (hline ((hinput.append (by decide)).append hname.oneLine))
    · refine (Setting.render_oneLine hs (hd.2.2 value hvalue) .value).bind ?_
      intro text htext
      exact .ok (hline ((hname.append (by decide)).append htext))

namespace Stmt

variable {style : Style}

theorem emitAll_laidOut {stmts : List Stmt}
    (h : ∀ stmt ∈ stmts, ∀ page, Ensures (LaidOut stmt.outline page) (emit style stmt page))
    (page : Page) : Ensures (LaidOut (outlineAll stmts) page) (emitAll style stmts page) := by
  induction stmts generalizing page with
  | nil => exact .ok (.refl page)
  | cons stmt stmts ih =>
    refine (h stmt List.mem_cons_self page).bind ?_
    intro page' hpage'
    refine (ih (fun a ha => h a (List.mem_cons_of_mem stmt ha)) page').mono ?_
    intro page'' hpage''
    exact hpage'.trans hpage''

/-- A statement is laid out by its outline, on its own and behind `else`. -/
def EmitsOutline (style : Style) (stmt : Stmt) : Prop :=
  (∀ page, Ensures (LaidOut stmt.outline page) (emit style stmt page)) ∧
    ∀ page, Ensures (LaidOut (outlineElse (some stmt)) page) (emitElse style (some stmt) page)

/-- Behind `else`, a statement that is no further branch stands under a line of its own. -/
theorem EmitsOutline.of_emit (hs : style.SolidWords) {stmt : Stmt} (hbranch : stmt.isBranch = false)
    (hemit : ∀ page, Ensures (LaidOut stmt.outline page) (emit style stmt page)) :
    EmitsOutline style stmt := by
  refine ⟨hemit, ?_⟩
  intro page
  have helse : Solid style.keywords.elseWord := hs.keyword (by simp [Keywords.written])
  have houtline : outlineElse (some stmt) = [0] ++ stmt.outline.map (· + 1) := by
    cases stmt with
    | ifElse => cases hbranch
    | _ => rfl
  rw [emitElse_eq style hbranch, houtline]
  refine (hemit _).bind ?_
  intro page' hpage'
  exact .ok ((LaidOut.write page helse).trans hpage'.nested)

/-- A body under a head and over a last line. -/
theorem laidOut_loop {page page' : Page} {head last : String} {ds : List Nat} (hhead : Solid head)
    (hbody : LaidOut ds (page.write head).deeper page') (hlast : Solid last) :
    LaidOut (0 :: ds.map (· + 1) ++ [0]) page (page'.shallower.write last) :=
  ((LaidOut.write page hhead).trans hbody.nested).trans (LaidOut.write _ hlast)

theorem emit_laidOut (hs : style.SolidWords) {stmt : Stmt} (h : stmt.WellFormed .lexical) :
    EmitsOutline style stmt := by
  have hrender : ∀ {e : Expr} (page : Page), e.WellFormed .lexical →
      Ensures OneLine ((page.setting style).render .whole e) := by
    intro e page he
    exact Setting.render_oneLine hs he .whole
  induction stmt with
  | block p body ih =>
    have hbody := allWellFormed_iff.mp h
    apply EmitsOutline.of_emit hs rfl
    exact emitAll_laidOut fun stmt hstmt => (ih stmt hstmt (hbody stmt hstmt)).1
  | declaration d => exact .of_emit hs rfl (d.emit_laidOut hs h)
  | assignment a =>
    apply EmitsOutline.of_emit hs rfl
    intro page
    exact (Setting.renderAssignment_solid hs h).bind fun _ htext => .ok (.write page htext)
  | update u =>
    apply EmitsOutline.of_emit hs rfl
    intro page
    exact (Setting.renderUpdate_solid hs h).bind fun _ htext => .ok (.write page htext)
  | expression p e | call p e =>
    apply EmitsOutline.of_emit hs rfl
    intro page
    exact (Setting.renderStatement_solid hs h).bind fun _ htext => .ok (.write page htext)
  | ifElse p test consequent alternate ihconsequent ihalternate =>
    obtain ⟨htest, hconsequent, halternate⟩ := h
    have halternate := optionWellFormed_iff.mp halternate
    have helse : ∀ page, Ensures (LaidOut (outlineElse alternate) page)
        (emitElse style alternate page) := by
      intro page
      cases alternate with
      | none => exact .ok (.refl page)
      | some stmt => exact (ihalternate stmt rfl (halternate stmt rfl)).2 page
    have hbranch : ∀ {word text : String} {page page' : Page}, Solid word → OneLine text →
        LaidOut consequent.outline (page.write (style.branchHead word text)).deeper page' →
        LaidOut ([0] ++ consequent.outline.map (· + 1)) page page'.shallower := by
      intro word text page page' hword htext hpage'
      exact (LaidOut.write page (hs.branchHead hword htext)).trans hpage'.nested
    constructor
    · intro page
      have hif : Solid style.keywords.ifWord := hs.keyword (by simp [Keywords.written])
      have hend : Solid style.keywords.endIf := hs.keyword (by simp [Keywords.written])
      refine (hrender page htest).bind ?_
      intro text htext
      refine ((ihconsequent hconsequent).1 _).bind ?_
      intro page' hpage'
      refine (helse _).bind ?_
      intro page'' hpage''
      exact .ok (((hbranch hif htext hpage').trans hpage'').trans (.write _ hend))
    · intro page
      have helseIf : Solid style.keywords.elseIf := hs.keyword (by simp [Keywords.written])
      refine (hrender page htest).bind ?_
      intro text htext
      refine ((ihconsequent hconsequent).1 _).bind ?_
      intro page' hpage'
      refine (helse _).mono ?_
      intro page'' hpage''
      exact (hbranch helseIf htext hpage').trans hpage''
  | whileLoop p test body ih =>
    obtain ⟨htest, hbody⟩ := h
    apply EmitsOutline.of_emit hs rfl
    intro page
    refine (hrender page htest).bind ?_
    intro text htext
    refine ((ih hbody).1 _).bind ?_
    intro page' hpage'
    exact .ok (laidOut_loop (hs.whileHead htext) hpage' hs.fixed.1)
  | doWhileLoop p body test ih =>
    obtain ⟨hbody, htest⟩ := h
    have huntil : Solid style.keywords.untilWord := hs.keyword (by simp [Keywords.written])
    apply EmitsOutline.of_emit hs rfl
    intro page
    refine ((ih hbody).1 _).bind ?_
    intro page' hpage'
    refine (hrender _ (Expr.inverted_wellFormed htest)).bind ?_
    intro text htext
    exact .ok (laidOut_loop hs.fixed.2.1 hpage' ((huntil.append (by decide)).append htext))
  | forLoop p init test step body ih =>
    obtain ⟨hinit, htest, hstep, hbody⟩ := h
    apply EmitsOutline.of_emit hs rfl
    intro page
    refine (Setting.forHead_solid hs p hinit htest hstep).bind ?_
    intro head hhead
    refine ((ih hbody).1 _).bind ?_
    intro page' hpage'
    exact .ok ((laidOut_loop hhead hpage' hs.fixed.2.2).of_sheet_eq rfl)
  | unsupported kind => exact h.elim

end Stmt

/-- The page of a program is laid out by the outline of the program. -/
theorem Program.render_laidOut {style : Style} (hs : style ∈ Style.catalogue) {program : Program}
    (h : program.WellFormed .lexical) :
    Ensures (LaidOut program.outline (.blank style)) (program.render style) := by
  apply Stmt.emitAll_laidOut
  intro stmt hstmt
  exact (Stmt.emit_laidOut (Style.solidWords_of_mem hs) (h stmt hstmt)).1

/-! ## The outline in the text -/

namespace Source

/-- The number of blanks at the front of a line. -/
def leadingBlanks (line : List Char) : Nat :=
  (line.takeWhile (· == ' ')).length

/-- The blanks in front of a visible character. -/
theorem leadingBlanks_append {cs : List Char} (h : ∃ c ∈ cs.head?, c ≠ ' ') (n : Nat) :
    leadingBlanks (List.replicate n ' ' ++ cs) = n := by
  obtain ⟨c, hc, hne⟩ := h
  have hblanks : ∀ d ∈ List.replicate n ' ', (d == ' ') = true := by
    intro d hd
    rw [List.eq_of_mem_replicate hd]
    rfl
  have hends : ∀ d ∈ cs.head?, (d == ' ') = false := by
    intro d hd
    obtain rfl := Option.some.inj (hc.symm.trans hd)
    exact beq_eq_false_iff_ne.mpr hne
  rw [leadingBlanks, Token.takeWhile_append_eq hblanks hends, List.length_replicate]

/-- The lines of texts that are put together line by line. -/
theorem lines_join {texts : List String} (hne : texts ≠ []) (h : ∀ t ∈ texts, OneLine t) :
    lines (Text.join "\n" texts).toList = texts.map String.toList := by
  fun_induction Text.join "\n" texts with
  | case1 => exact absurd rfl hne
  | case2 t => exact lines_of_not_mem (h t List.mem_cons_self)
  | case3 t u ts ih =>
    have hcut : (t ++ "\n" ++ Text.join "\n" (u :: ts)).toList =
        t.toList ++ '\n' :: (Text.join "\n" (u :: ts)).toList := by
      simp
    have hrest := ih (List.cons_ne_nil u ts) fun v hv => h v (List.mem_cons_of_mem t hv)
    rw [hcut, lines_append_newline (h t List.mem_cons_self), hrest]
    rfl

end Source

open Source (leadingBlanks)

theorem Text.toList_repeated {t : String} {width : Nat} (h : t.toList = List.replicate width ' ')
    (n : Int) : (Text.repeated t n).toList = List.replicate (n.toNat * width) ' ' := by
  unfold repeated
  generalize n.toNat = m
  induction m with
  | zero => simp [concat]
  | succ m ih =>
    rw [List.replicate_succ, concat, String.toList_append, h, ih,
      List.replicate_append_replicate, Nat.succ_mul, Nat.add_comm]

/-- One step of depth in a style. -/
theorem Text.toList_indentation (style : Style) :
    (Text.repeated " " style.indent).toList = List.replicate style.indent.toNat ' ' := by
  have hblank : " ".toList = List.replicate 1 ' ' := rfl
  rw [Text.toList_repeated hblank, Nat.mul_one]

/-- The blanks in front of a solid line are its indentation. -/
theorem Line.leadingBlanks_layout {unit : String} {width : Nat}
    (hunit : unit.toList = List.replicate width ' ') {line : Line} (h : Solid line.text) :
    leadingBlanks (line.layout unit).toList = line.depth.toNat * width := by
  have hne : line.text ≠ "" := by
    intro hempty
    obtain ⟨c, hc, -⟩ := h.visible
    rw [hempty] at hc
    cases hc
  rw [layout, if_neg hne, String.toList_append, Text.toList_repeated hunit]
  exact Source.leadingBlanks_append h.visible _

theorem Line.oneLine_layout {unit : String} {width : Nat}
    (hunit : unit.toList = List.replicate width ' ') {line : Line} (h : OneLine line.text) :
    OneLine (line.layout unit) := by
  unfold layout
  split
  · decide
  · refine Text.OneLine.append ?_ h
    intro hfeed
    rw [Text.toList_repeated hunit] at hfeed
    cases List.eq_of_mem_replicate hfeed

/-- The depths that a text shows: one without lines has an empty one. -/
def shownDepths : List Nat → List Nat
  | [] => [0]
  | d :: ds => d :: ds

/-- The text of a page shows the outline that the page is laid out by. -/
theorem Page.LaidOut.leadingBlanks_output {style : Style} {ds : List Nat} {page : Page}
    (h : LaidOut ds (.blank style) page) :
    (Source.lines page.output.toList).map leadingBlanks =
      (shownDepths ds).map (· * style.indent.toNat) := by
  obtain ⟨written, hwritten, hdepths, hsolid⟩ := h.lines
  have hunit : page.sheet.unit.toList = List.replicate style.indent.toNat ' ' := by
    rw [h.unit]
    exact Text.toList_indentation style
  have houtput : page.output = Text.join "\n" (written.map (Line.layout page.sheet.unit)) := by
    unfold output Sheet.output
    rw [hwritten]
    rfl
  cases ds with
  | nil =>
    obtain rfl := List.map_eq_nil_iff.mp hdepths
    have hempty : Source.lines [] = [[]] := Source.lines_of_not_mem (by simp)
    rw [houtput]
    simp [hempty, shownDepths, leadingBlanks]
  | cons d ds =>
    have hne : written.map (Line.layout page.sheet.unit) ≠ [] := by
      intro hnil
      rw [List.map_eq_nil_iff.mp hnil] at hdepths
      cases hdepths
    have hlines : ∀ t ∈ written.map (Line.layout page.sheet.unit), OneLine t := by
      intro t ht
      obtain ⟨line, hline, rfl⟩ := List.mem_map.mp ht
      exact line.oneLine_layout hunit (hsolid line hline).oneLine
    have hblanks : ∀ line ∈ written, leadingBlanks (line.layout page.sheet.unit).toList =
        line.depth.toNat * style.indent.toNat :=
      fun line hline => line.leadingBlanks_layout hunit (hsolid line hline)
    rw [houtput, Source.lines_join hne hlines]
    calc ((written.map (Line.layout page.sheet.unit)).map String.toList).map leadingBlanks
        = written.map fun line => line.depth.toNat * style.indent.toNat := by
          rw [List.map_map, List.map_map]
          exact List.map_congr_left hblanks
      _ = (written.map Line.depth).map (·.toNat * style.indent.toNat) := by rw [List.map_map]; rfl
      _ = (d :: ds).map (· * style.indent.toNat) := by
          rw [hdepths, List.map_map]
          apply List.map_congr_left
          intro d _
          show (0 + (d : Int)).toNat * style.indent.toNat = d * style.indent.toNat
          rw [Int.zero_add, Int.toNat_natCast]

end Pseudocode
