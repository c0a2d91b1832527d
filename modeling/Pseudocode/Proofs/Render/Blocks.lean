import Pseudocode.Proofs.Conversion.Styles
import Pseudocode.Proofs.Loop.Headers
set_option autoImplicit false

/-!
# Lines in blocks

Writing a statement adds lines to a page and leaves the depth of the page as it was.  The lines of
a branch or a loop fall into blocks: a head as deep as the statement stands, and under it lines
that are deeper.  A chain of branches has one block for each of its tests and one for the last
`else`, and like a loop it is closed by a single line.
-/

namespace Pseudocode

open Text (OneLine Solid)
open Page (LaidOut)

/-! ## Heads -/

namespace Stmt

mutual

/-- The tests of a chain of branches, in their order. -/
def tests : Stmt → List Expr
  | .ifElse _ test _ alternate => test :: testsElse alternate
  | _ => []

/-- The tests of the branches behind `else`. -/
def testsElse : Option Stmt → List Expr
  | none => []
  | some stmt => tests stmt

end

mutual

/-- What a chain of branches comes to when all its tests fail.  Any other statement comes to
itself. -/
def fallback : Stmt → Option Stmt
  | .ifElse _ _ _ alternate => fallbackElse alternate
  | stmt => some stmt

/-- What the branches behind `else` come to when all their tests fail. -/
def fallbackElse : Option Stmt → Option Stmt
  | none => none
  | some stmt => fallback stmt

end

end Stmt

/-- What opens a block of lines: the first test of a chain of branches, a further one, the last
`else`, or a loop. -/
inductive Head where
  | first (test : Expr)
  | further (test : Expr)
  | otherwise
  | whileLoop (test : Expr)
  | doWhileLoop
  | forLoop (pos : Pos) (init : Option ForInit) (test : Option Expr) (update : Option ForUpdate)
  deriving Repr, Inhabited

/-- The text of the line that a head is, with the types that are known where it stands. -/
def Head.text (s : Setting) : Head → Except RenderError String
  | .first test => do
    let test ← s.render .whole test
    return s.style.branchHead s.style.keywords.ifWord test
  | .further test => do
    let test ← s.render .whole test
    return s.style.branchHead s.style.keywords.elseIf test
  | .otherwise => .ok s.style.keywords.elseWord
  | .whileLoop test => do
    let test ← s.render .whole test
    return s.style.whileHead test
  | .doWhileLoop => .ok s.style.repeatHead
  | .forLoop p init test update => s.forHead p init test update

namespace Stmt

/-- The heads behind `else`: one for each further test and one for the last `else`, if there is
one. -/
def elseHeads (alternate : Option Stmt) : List Head :=
  (testsElse alternate).map .further ++ (fallbackElse alternate).toList.map fun _ => .otherwise

/-- The heads of a branch or a loop. -/
def heads : Stmt → List Head
  | .ifElse _ test _ alternate => .first test :: elseHeads alternate
  | .whileLoop _ test _ => [.whileLoop test]
  | .doWhileLoop .. => [.doWhileLoop]
  | .forLoop p init test step _ => [.forLoop p init test step]
  | _ => []

/-- The text of the line that closes a branch or a loop. -/
def lastText (s : Setting) : Stmt → Except RenderError String
  | .ifElse .. => .ok s.style.keywords.endIf
  | .whileLoop .. => .ok s.style.whileEnd
  | .doWhileLoop _ _ test => do
    let test ← s.render .whole test.inverted
    return s.style.keywords.untilWord ++ " " ++ test
  | .forLoop .. => .ok s.style.forEnd
  | _ => .ok ""

theorem elseHeads_of_isBranch {stmt : Stmt} (h : stmt.isBranch = false) :
    elseHeads (some stmt) = [.otherwise] := by
  cases stmt with
  | ifElse => cases h
  | _ => rfl

end Stmt

/-! ## Blocks -/

/-- The line is as deep as it says and holds the text that `write` gives for the style, with the
types known at that point. -/
def Line.Holds (style : Style) (d : Int) (write : Setting → Except RenderError String)
    (line : Line) : Prop :=
  line.depth = d ∧ ∃ types, write ⟨style, types⟩ = .ok line.text

/-- The lines fall into blocks, one for each of the heads: a line with the head at the depth `d`,
and under it lines that are deeper. -/
inductive Blocks (style : Style) (d : Int) : List Head → List Line → Prop where
  | nil : Blocks style d [] []
  | cons {head : Head} {heads : List Head} {line : Line} {body rest : List Line}
      (hline : line.Holds style d head.text) (hbody : ∀ l ∈ body, d + 1 ≤ l.depth)
      (hrest : Blocks style d heads rest) : Blocks style d (head :: heads) (line :: body ++ rest)

namespace Page

variable {style : Style} {page page' page'' : Page} {ds : List Nat}

/-- The second page is the first one with a block for each of the heads. -/
structure AddsBlocks (style : Style) (heads : List Head) (page page' : Page) : Prop where
  depth : page'.sheet.depth = page.sheet.depth
  lines : ∃ lines, page'.sheet.lines = page.sheet.lines ++ lines ∧
    Blocks style page.sheet.depth heads lines

/-- One block, and then those of the other heads. -/
theorem AddsBlocks.cons {head : Head} {heads : List Head} {text : String}
    (hhead : head.text (page.setting style) = .ok text)
    (hbody : LaidOut ds (page.write text).deeper page')
    (hrest : AddsBlocks style heads page'.shallower page'') :
    AddsBlocks style (head :: heads) page page'' := by
  have hnested := hbody.nested
  obtain ⟨body, hlines, hdepths, -⟩ := hnested.lines
  obtain ⟨rest, hrestLines, hblocks⟩ := hrest.lines
  rw [hnested.depth] at hblocks
  refine ⟨hrest.depth.trans hnested.depth, ⟨page.sheet.depth, text⟩ :: body ++ rest, ?_, ?_⟩
  · rw [hrestLines, hlines]
    show page.sheet.lines ++ [_] ++ body ++ rest = _
    simp
  · refine .cons ⟨rfl, page.types, hhead⟩ ?_ hblocks
    intro line hline
    have hdepth := List.mem_map_of_mem (f := Line.depth) hline
    rw [hdepths, List.map_map] at hdepth
    obtain ⟨n, -, hn⟩ := List.mem_map.mp hdepth
    have hdeeper : line.depth = page.sheet.depth + ((n + 1 : Nat) : Int) := hn.symm
    omega

theorem AddsBlocks.nil (page : Page) : AddsBlocks style [] page page :=
  ⟨rfl, [], by simp, .nil⟩

/-- The second page is the first one with the blocks of a statement and the line that closes
it. -/
def AddsStmt (style : Style) (stmt : Stmt) (page page' : Page) : Prop :=
  ∃ front last, page'.sheet.lines = page.sheet.lines ++ (front ++ [last]) ∧
    Blocks style page.sheet.depth stmt.heads front ∧
    last.Holds style page.sheet.depth stmt.lastText

theorem AddsBlocks.close {stmt : Stmt} {text : String}
    (h : AddsBlocks style stmt.heads page page')
    (htext : stmt.lastText (page'.setting style) = .ok text) :
    AddsStmt style stmt page (page'.write text) := by
  obtain ⟨lines, hlines, hblocks⟩ := h.lines
  refine ⟨lines, ⟨page'.sheet.depth, text⟩, ?_, hblocks, h.depth, page'.types, htext⟩
  show page'.sheet.lines ++ [_] = _
  rw [hlines, List.append_assoc]

end Page

open Page (AddsBlocks AddsStmt)

namespace Stmt

variable {style : Style}

/-- The last `else` is a block of its own. -/
theorem emitElse_last (hs : style.SolidWords) {stmt : Stmt} (h : stmt.WellFormed .lexical)
    (hbranch : stmt.isBranch = false) (page : Page) :
    Ensures (AddsBlocks style (elseHeads (some stmt)) page) (emitElse style (some stmt) page) := by
  rw [elseHeads_of_isBranch hbranch, emitElse_eq style hbranch]
  refine ((emit_laidOut hs h).1 _).bind ?_
  intro page' hpage'
  exact .ok (.cons rfl hpage' (.nil _))

/-- A branch under its head, and the blocks behind its `else`. -/
theorem branch_addsBlocks (hs : style.SolidWords) (word : String) {test : Expr}
    {consequent : Stmt} {alternate : Option Stmt} {head : Head} {page : Page}
    (hconsequent : consequent.WellFormed .lexical)
    (hhead : ∀ text, (page.setting style).render .whole test = .ok text →
      head.text (page.setting style) = .ok (style.branchHead word text))
    (helse : ∀ page, Ensures (AddsBlocks style (elseHeads alternate) page)
      (emitElse style alternate page)) :
    Ensures (AddsBlocks style (head :: elseHeads alternate) page) (do
      let text ← (page.setting style).render .whole test
      let page ← emit style consequent (page.write (style.branchHead word text)).deeper
      emitElse style alternate page.shallower) := by
  intro page'' hemit
  obtain ⟨text, htext, hemit⟩ := exists_of_bind hemit
  obtain ⟨page', hpage', hemit⟩ := exists_of_bind hemit
  have hbody := (emit_laidOut hs hconsequent).1 _ page' hpage'
  exact .cons (hhead text htext) hbody (helse _ _ hemit)

theorem emitElse_addsBlocks (hs : style.SolidWords) {alternate : Option Stmt}
    (h : ∀ stmt ∈ alternate, stmt.WellFormed .lexical) (page : Page) :
    Ensures (AddsBlocks style (elseHeads alternate) page) (emitElse style alternate page) := by
  cases alternate with
  | none => exact .ok (.nil page)
  | some stmt =>
    have hstmt := h stmt rfl
    clear h
    -- Only a further branch leads on along the chain.
    induction stmt generalizing page with
    | ifElse p test consequent alternate _ ih =>
      obtain ⟨-, hconsequent, halternate⟩ := hstmt
      have halternate := optionWellFormed_iff.mp halternate
      refine branch_addsBlocks hs style.keywords.elseIf hconsequent ?_ ?_
      · intro text htext
        rw [Head.text, htext]
        rfl
      · intro page
        cases alternate with
        | none => exact .ok (.nil page)
        | some stmt => exact ih stmt rfl page (halternate stmt rfl)
    | _ => exact emitElse_last hs hstmt rfl page

/-- A loop has one block. -/
theorem loop_addsStmt {stmt : Stmt} {head : Head} {text last : String}
    {page page' : Page} {ds : List Nat} (hheads : stmt.heads = [head])
    (hhead : head.text (page.setting style) = .ok text)
    (hbody : LaidOut ds (page.write text).deeper page')
    (hlast : stmt.lastText (page'.setting style) = .ok last) :
    AddsStmt style stmt page (page'.shallower.write last) := by
  refine AddsBlocks.close ?_ hlast
  rw [hheads]
  exact .cons hhead hbody (.nil _)

/-- A branch or a loop is written in blocks. -/
theorem emit_addsStmt (hs : style.SolidWords) {stmt : Stmt} (h : stmt.WellFormed .lexical)
    (hheads : stmt.heads ≠ []) (page : Page) :
    Ensures (AddsStmt style stmt page) (emit style stmt page) := by
  cases stmt with
  | ifElse p test consequent alternate =>
    obtain ⟨-, hconsequent, halternate⟩ := h
    have helse := fun page => emitElse_addsBlocks hs (optionWellFormed_iff.mp halternate) page
    have hblocks :
        Ensures (AddsBlocks style (heads (.ifElse p test consequent alternate)) page) _ :=
      branch_addsBlocks hs style.keywords.ifWord hconsequent
        (fun text htext => by rw [Head.text, htext]; rfl) helse
    intro page' hemit
    obtain ⟨text, htext, hemit⟩ := exists_of_bind hemit
    obtain ⟨page₁, hpage₁, hemit⟩ := exists_of_bind hemit
    obtain ⟨page₂, hpage₂, hemit⟩ := exists_of_bind hemit
    obtain rfl := Except.ok.inj hemit
    refine (hblocks page₂ ?_).close rfl
    rw [htext]
    show (emit style consequent _ >>= _) = _
    rw [hpage₁]
    exact hpage₂
  | whileLoop p test body =>
    intro page' hemit
    obtain ⟨text, htext, hemit⟩ := exists_of_bind hemit
    obtain ⟨page₁, hpage₁, hemit⟩ := exists_of_bind hemit
    obtain rfl := Except.ok.inj hemit
    have hbody := (emit_laidOut hs h.2).1 _ page₁ hpage₁
    exact loop_addsStmt rfl (by rw [Head.text, htext]; rfl) hbody rfl
  | doWhileLoop p body test =>
    intro page' hemit
    obtain ⟨page₁, hpage₁, hemit⟩ := exists_of_bind hemit
    obtain ⟨text, htext, hemit⟩ := exists_of_bind hemit
    obtain rfl := Except.ok.inj hemit
    have hbody := (emit_laidOut hs h.1).1 _ page₁ hpage₁
    have hlast : lastText (page₁.setting style) (.doWhileLoop p body test) =
        .ok (style.keywords.untilWord ++ " " ++ text) := by
      rw [lastText]
      exact congrArg (· >>= _) htext
    exact loop_addsStmt rfl rfl hbody hlast
  | forLoop p init test step body =>
    intro page' hemit
    obtain ⟨head, hhead, hemit⟩ := exists_of_bind hemit
    obtain ⟨page₁, hpage₁, hemit⟩ := exists_of_bind hemit
    obtain rfl := Except.ok.inj hemit
    have hbody := (emit_laidOut hs h.2.2.2).1 _ page₁ hpage₁
    -- The declaration in the head does not show on the sheet.
    have hloop : AddsStmt style (.forLoop p init test step body) (page.declareInit init) _ :=
      loop_addsStmt rfl hhead hbody rfl
    exact hloop
  | _ => exact absurd rfl hheads

end Stmt

/-! ## What a statement adds to a page -/

/-- The line shows its depth in a style: that many steps of blanks, and then a character that is
none, with no line feed behind it. -/
def Line.Indented (style : Style) (line : Line) : Prop :=
  ∃ c cs, (line.layout (Text.repeated " " style.indent)).toList =
      List.replicate (style.indent * line.depth).toNat ' ' ++ c :: cs ∧
    c ≠ ' ' ∧ '\n' ∉ c :: cs

theorem Line.indented_of_solid {style : Style} (hstyle : 0 ≤ style.indent) {line : Line}
    (hdepth : 0 ≤ line.depth) (h : Solid line.text) : line.Indented style := by
  obtain ⟨c, hc, hvisible⟩ := h.visible
  obtain ⟨cs, htext⟩ := List.head?_eq_some_iff.mp (Option.mem_def.mp hc)
  have hne : line.text ≠ "" := by
    rintro hempty
    rw [hempty] at htext
    cases htext
  have hsteps : (style.indent * line.depth).toNat = line.depth.toNat * style.indent.toNat := by
    rw [Int.toNat_mul hstyle hdepth, Nat.mul_comm]
  refine ⟨c, cs, ?_, hvisible, htext ▸ h.oneLine⟩
  rw [layout, if_neg hne, String.toList_append, htext, hsteps,
    Text.toList_repeated (Text.toList_indentation style)]

/-- What writing a statement does to a page of a style. -/
structure Stmt.Written (style : Style) (stmt : Stmt) (page page' : Page) : Prop where
  /-- The page is as deep as before. -/
  depth : page'.sheet.depth = page.sheet.depth
  /-- What was on the page is still there, and the lines below it are indented by at least the
  depth of the page.  Those of a branch or a loop fall into blocks, up to the last one. -/
  lines : ∃ lines, page'.sheet.lines = page.sheet.lines ++ lines ∧
    (∀ line ∈ lines, page.sheet.depth ≤ line.depth ∧ line.Indented style) ∧
    (stmt.heads ≠ [] → ∃ front last, lines = front ++ [last] ∧
      Blocks style page.sheet.depth stmt.heads front ∧
      last.Holds style page.sheet.depth stmt.lastText)
  /-- The lines of the text are those of the sheet, unless there are none. -/
  output : (∀ line ∈ page.sheet.lines, OneLine line.text) → page'.sheet.lines ≠ [] →
    Source.lines page'.output.toList =
      page'.sheet.lines.map fun line => (line.layout page'.sheet.unit).toList

/-- **Blocks.**  Take a statement of a program that was read from a text, at whatever depth it
stands there, and any page of a style, at a depth that is not negative.  The statement can be
written on the page, which is as deep afterwards as it was before and keeps the lines that it had.
The lines that are added are indented by the depth of the page or more; the lines of a
branch or a loop fall into one block for each of its heads, and one line closes them.  If no line
of the page had a line feed, the text on it has the lines of the sheet. -/
theorem Stmt.emit_in_blocks {text : String} {tokens : List Token} {program : Program}
    (htokens : tokenize text = .ok tokens) (hprogram : Program.ofTokens tokens = .ok program)
    {stmt : Stmt} (hstmt : stmt ∈ program.body.flatMap Stmt.parts) {style : Style}
    (hs : style ∈ Style.catalogue) {page : Page} (hdepth : 0 ≤ page.sheet.depth)
    (hunit : page.sheet.unit = Text.repeated " " style.indent) :
    ∃ page', stmt.emit style page = .ok page' ∧ stmt.Written style page page' := by
  have hsolid := Style.solidWords_of_mem hs
  have hwell : stmt.WellFormed .lexical := by
    obtain ⟨outer, houter, hparts⟩ := List.mem_flatMap.mp hstmt
    have hprogram := Program.wellFormed_of_admits (Token.scan_admits htokens) hprogram
    exact (hprogram outer houter).of_mem_parts hparts
  obtain ⟨page', hpage'⟩ := (emit_yields (Style.isSound_of_mem hs) hwell).1 page
  have hlaid := (emit_laidOut hsolid hwell).1 page page' hpage'
  obtain ⟨lines, hlines, hdepths, htexts⟩ := hlaid.lines
  refine ⟨page', hpage', hlaid.depth, ⟨lines, hlines, ?_, ?_⟩, ?_⟩
  · intro line hline
    have hmem := List.mem_map_of_mem (f := Line.depth) hline
    rw [hdepths] at hmem
    obtain ⟨n, -, hn⟩ := List.mem_map.mp hmem
    have hindent := Int.le_of_lt (Style.indent_pos hs)
    exact ⟨by omega, Line.indented_of_solid hindent (by omega) (htexts line hline)⟩
  · intro hheads
    obtain ⟨front, last, hadded, hblocks, hlast⟩ :=
      emit_addsStmt hsolid hwell hheads page page' hpage'
    exact ⟨front, last, List.append_cancel_left (hlines.symm.trans hadded), hblocks, hlast⟩
  · intro hearlier hne
    have hone : ∀ t ∈ page'.sheet.lines.map (Line.layout page'.sheet.unit), OneLine t := by
      intro t ht
      obtain ⟨line, hline, rfl⟩ := List.mem_map.mp ht
      rw [hlaid.unit, hunit]
      apply line.oneLine_layout (Text.toList_indentation style)
      rw [hlines] at hline
      rcases List.mem_append.mp hline with hline | hline
      · exact hearlier line hline
      · exact (htexts line hline).oneLine
    rw [Page.output, Sheet.output, Source.lines_join (by simpa using hne) hone, List.map_map]
    rfl

/-- A chain of two branches with a loop in each of its last two blocks. -/
def branchChain : String :=
  "if (a) b = 1; else if (c) while (d) e(); else \x7b do x++; while (y); \x7d"

/-- Its tokens. -/
def branchChainTokens : List Token :=
  [⟨.keyword, "if", ⟨1, 1⟩⟩, ⟨.paren, "(", ⟨1, 4⟩⟩, ⟨.identifier, "a", ⟨1, 5⟩⟩,
    ⟨.paren, ")", ⟨1, 6⟩⟩, ⟨.identifier, "b", ⟨1, 8⟩⟩, ⟨.operator, "=", ⟨1, 10⟩⟩,
    ⟨.number, "1", ⟨1, 12⟩⟩, ⟨.semicolon, ";", ⟨1, 13⟩⟩, ⟨.keyword, "else", ⟨1, 15⟩⟩,
    ⟨.keyword, "if", ⟨1, 20⟩⟩, ⟨.paren, "(", ⟨1, 23⟩⟩, ⟨.identifier, "c", ⟨1, 24⟩⟩,
    ⟨.paren, ")", ⟨1, 25⟩⟩, ⟨.keyword, "while", ⟨1, 27⟩⟩, ⟨.paren, "(", ⟨1, 33⟩⟩,
    ⟨.identifier, "d", ⟨1, 34⟩⟩, ⟨.paren, ")", ⟨1, 35⟩⟩, ⟨.identifier, "e", ⟨1, 37⟩⟩,
    ⟨.paren, "(", ⟨1, 38⟩⟩, ⟨.paren, ")", ⟨1, 39⟩⟩, ⟨.semicolon, ";", ⟨1, 40⟩⟩,
    ⟨.keyword, "else", ⟨1, 42⟩⟩, ⟨.brace, "\x7b", ⟨1, 47⟩⟩, ⟨.keyword, "do", ⟨1, 49⟩⟩,
    ⟨.identifier, "x", ⟨1, 52⟩⟩, ⟨.operator, "++", ⟨1, 53⟩⟩, ⟨.semicolon, ";", ⟨1, 55⟩⟩,
    ⟨.keyword, "while", ⟨1, 57⟩⟩, ⟨.paren, "(", ⟨1, 63⟩⟩, ⟨.identifier, "y", ⟨1, 64⟩⟩,
    ⟨.paren, ")", ⟨1, 65⟩⟩, ⟨.semicolon, ";", ⟨1, 66⟩⟩, ⟨.brace, "\x7d", ⟨1, 68⟩⟩,
    ⟨.eof, "", ⟨1, 69⟩⟩]

/-- The statement that they spell. -/
def branchChainStmt : Stmt :=
  .ifElse ⟨1, 1⟩ (.name ⟨1, 5⟩ "a")
    (.assignment ⟨⟨1, 8⟩, .name ⟨1, 8⟩ "b", .set, .literal ⟨1, 12⟩ "1"⟩)
    (some (.ifElse ⟨1, 20⟩ (.name ⟨1, 24⟩ "c")
      (.whileLoop ⟨1, 27⟩ (.name ⟨1, 34⟩ "d") (.expression ⟨1, 37⟩ (.call ⟨1, 37⟩ "e" [])))
      (some (.block ⟨1, 47⟩ [.doWhileLoop ⟨1, 49⟩
        (.update ⟨⟨1, 52⟩, .name ⟨1, 52⟩ "x", .increment⟩) (.name ⟨1, 64⟩ "y")]))))

/-- A page of the style in capitals, two steps deep. -/
def capitalPage : Page :=
  ⟨⟨"  ", 2, []⟩, .empty⟩

theorem tokenize_branchChain : tokenize branchChain = .ok branchChainTokens := by
  decide +kernel

/-- The chain has a block for each of its tests and one for the last `else`. -/
theorem Stmt.emit_in_blocks_branchChain :
    tokenize branchChain = .ok branchChainTokens ∧
      Program.ofTokens branchChainTokens = .ok ⟨⟨1, 1⟩, [branchChainStmt]⟩ ∧
      Style.capital "sc-01" ∈ Style.catalogue ∧ 0 ≤ capitalPage.sheet.depth ∧
      branchChainStmt.heads =
        [.first (.name ⟨1, 5⟩ "a"), .further (.name ⟨1, 24⟩ "c"), .otherwise] ∧
      ∃ page', branchChainStmt.emit (.capital "sc-01") capitalPage = .ok page' ∧
        branchChainStmt.Written (.capital "sc-01") capitalPage page' := by
  have hstyle : Style.capital "sc-01" ∈ Style.catalogue := by decide
  have hmem : branchChainStmt ∈ [branchChainStmt].flatMap Stmt.parts := List.mem_cons_self
  exact ⟨tokenize_branchChain, rfl, hstyle, by decide, rfl,
    emit_in_blocks tokenize_branchChain rfl hmem hstyle (by decide) rfl⟩

end Pseudocode
