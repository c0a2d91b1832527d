import Pseudocode.Render.Loop
import Pseudocode.Render.Sheet
set_option autoImplicit false

/-!
# Programs as pseudocode (SPEC §4.5)

Statements are written on a page, one after the other.  The page remembers the types
that variables were declared with, since later lines depend on them.
-/

namespace Pseudocode

/-- A sheet with what is written on it, and the declarations met so far. -/
structure Page where
  sheet : Sheet
  types : TypeTable
  deriving DecidableEq, Repr, Inhabited

namespace Page

/-- A page for a style, with nothing on it. -/
def blank (style : Style) : Page :=
  ⟨.blank (Text.repeated " " style.indent), .empty⟩

/-- Writes a line. -/
def write (page : Page) (text : String) : Page :=
  { page with sheet := page.sheet.write text }

/-- The page one step deeper. -/
def deeper (page : Page) : Page :=
  { page with sheet := page.sheet.shift 1 }

/-- The page one step less deep. -/
def shallower (page : Page) : Page :=
  { page with sheet := page.sheet.shift (-1) }

/-- Notes a declaration. -/
def declare (page : Page) (name typeName : String) : Page :=
  { page with types := page.types.declare name typeName }

/-- Notes the declaration that a loop starts with. -/
def declareInit (page : Page) (init : Option ForInit) : Page :=
  { page with types := init.elim page.types (ForInit.declare page.types) }

/-- What rendering depends on at this point of the page. -/
def setting (page : Page) (style : Style) : Setting :=
  ⟨style, page.types⟩

/-- The text on the page. -/
def output (page : Page) : String :=
  page.sheet.output

end Page

/-- The types of variables that stand for an input device; such variables do not show. -/
def deviceTypes : List String :=
  ["Scanner", "BufferedReader"]

namespace Style

/-- The line that opens a branch, with the word it starts with. -/
def branchHead (style : Style) (word test : String) : String :=
  word ++ " " ++ test ++ " " ++ style.keywords.thenWord

/-- The line that opens a loop with a test in front. -/
def whileHead (style : Style) (test : String) : String :=
  if style.keywords.loopFamily then style.keywords.loopWhile ++ " " ++ test
  else style.keywords.whileWord ++ " " ++ test ++ " " ++ style.keywords.doWord

/-- The line that closes a loop with a test in front. -/
def whileEnd (style : Style) : String :=
  if style.keywords.loopFamily then style.keywords.endLoop else style.keywords.endWhile

/-- The line that opens a loop with a test behind. -/
def repeatHead (style : Style) : String :=
  if style.keywords.loopFamily then style.keywords.loop else style.keywords.repeatWord

/-- The line that closes a counting loop. -/
def forEnd (style : Style) : String :=
  if style.keywords.loopFamily then style.keywords.endLoop else style.keywords.endFor

end Style

/-- The line that opens a counting loop. -/
def Setting.forHead (s : Setting) (p : Pos) (init : Option ForInit) (test : Option Expr)
    (update : Option ForUpdate) : Except RenderError String :=
  if s.style.keywords.loopFamily then do
    let header ← s.countingHeader p init test update
    return s.style.keywords.loop ++ " " ++ header
  else do
    let header ← s.structuredHeader init test update
    return s.style.keywords.forWord ++ " " ++ header

/-- Writes a declaration. -/
def Declaration.emit (style : Style) (d : Declaration) (page : Page) : Except RenderError Page :=
  let page := page.declare d.name d.typeName
  if deviceTypes.contains d.typeName then .ok page
  else
    match d.value with
    | none => .ok (page.write d.name)
    | some value =>
      if value.isInputCall then .ok (page.write (style.keywords.input ++ " " ++ d.name))
      else do
        let text ← (page.setting style).render .value value
        return page.write (d.name ++ " = " ++ text)

namespace Stmt

mutual

/-- Writes a statement. -/
def emit (style : Style) : Stmt → Page → Except RenderError Page
  | .block _ body, page => emitAll style body page
  | .declaration d, page => d.emit style page
  | .assignment a, page => do
    let text ← (page.setting style).renderAssignment a
    return page.write text
  | .update u, page => do
    let text ← (page.setting style).renderUpdate u
    return page.write text
  | .expression _ e, page => do
    let text ← (page.setting style).renderStatement e
    return page.write text
  | .call _ e, page => do
    let text ← (page.setting style).renderStatement e
    return page.write text
  | .ifElse _ test consequent alternate, page => do
    let text ← (page.setting style).render .whole test
    let page := page.write (style.branchHead style.keywords.ifWord text)
    let page ← emit style consequent page.deeper
    let page ← emitElse style alternate page.shallower
    return page.write style.keywords.endIf
  | .whileLoop _ test body, page => do
    let text ← (page.setting style).render .whole test
    let page := page.write (style.whileHead text)
    let page ← emit style body page.deeper
    return page.shallower.write style.whileEnd
  | .doWhileLoop _ body test, page => do
    let page ← emit style body (page.write style.repeatHead).deeper
    let page := page.shallower
    let text ← (page.setting style).render .whole test.inverted
    return page.write (style.keywords.untilWord ++ " " ++ text)
  | .forLoop p init test step body, page => do
    let page := page.declareInit init
    let head ← (page.setting style).forHead p init test step
    let page ← emit style body (page.write head).deeper
    return page.shallower.write style.forEnd
  | .unsupported kind, _ => .error (.unsupportedStatement kind)

/-- Writes statements one after the other. -/
def emitAll (style : Style) : List Stmt → Page → Except RenderError Page
  | [], page => .ok page
  | stmt :: stmts, page => do
    let page ← emit style stmt page
    emitAll style stmts page

/-- Writes what stands behind `else`: a further branch of the same chain, or the last
one. -/
def emitElse (style : Style) : Option Stmt → Page → Except RenderError Page
  | none, page => .ok page
  | some stmt, page =>
    match stmt with
    | .ifElse _ test consequent alternate => do
      let text ← (page.setting style).render .whole test
      let page := page.write (style.branchHead style.keywords.elseIf text)
      let page ← emit style consequent page.deeper
      emitElse style alternate page.shallower
    | stmt => do
      let page ← emit style stmt (page.write style.keywords.elseWord).deeper
      return page.shallower

end

end Stmt

namespace Program

/-- Writes a program on a page. -/
def emit (style : Style) (program : Program) (page : Page) : Except RenderError Page :=
  Stmt.emitAll style program.body page

/-- A program as pseudocode. -/
def render (style : Style) (program : Program) : Except RenderError Page :=
  program.emit style (.blank style)

end Program

end Pseudocode
