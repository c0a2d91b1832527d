import Pseudocode.Number.Shortest
import Pseudocode.Render.Expr
import Pseudocode.Text.Blank
set_option autoImplicit false

/-!
# Loop headers (SPEC §4.5)

A counting loop has one of two headers.  The structured one repeats its three parts;
the other one gives the variable, its first and last values and the step between
them, as far as they can be made out from the three parts.
-/

namespace Pseudocode

/-- Which way a loop counts. -/
inductive Direction where
  | up
  | down
  deriving DecidableEq, Repr, Inhabited

/-- The word for a direction. -/
def Direction.word : Direction → String
  | .up => "to"
  | .down => "downto"

/-- The direction of a change by one. -/
def UpdateOp.direction : UpdateOp → Direction
  | .decrement => .down
  | _ => .up

/-- A change by one as text, from the text of what is changed. -/
def updateText (target : String) (op : UpdateOp) : String :=
  target ++ " = " ++ target ++ " " ++ op.sign ++ " 1"

/-- The types once a loop has done its first step. -/
def ForInit.declare (types : TypeTable) : ForInit → TypeTable
  | .declaration d => types.declare d.name d.typeName
  | _ => types

namespace Expr

/-- The methods that print. -/
def outputMethods : List String :=
  ["print", "println"]

/-- The arguments of a call that prints. -/
def printed? : Expr → Option (List Expr)
  | .methodCall _ receiver n args =>
    if outputMethods.contains n && receiver.propertyChain == ["System", "out"] then some args
    else none
  | _ => none

/-- What a call prints: its arguments or, if the only one is a string put together
from parts, those parts. -/
def printedItems : List Expr → List Expr
  | [e] =>
    let (parts, isString) := e.concatParts
    if isString && 1 < parts.length then parts else [e]
  | args => args

end Expr

namespace Setting

/-- The text of an expression that stands for a statement. -/
def renderStatement (s : Setting) (e : Expr) : Except RenderError String :=
  match e.printed? with
  | some [] => .ok s.style.keywords.output
  | some args => do
    let items ← (Expr.printedItems args).mapM (s.render .item)
    return s.style.keywords.output ++ " " ++ Text.join ", " items
  | none =>
    match e with
    | .update _ op operand => do
      let text ← s.render .whole operand
      return updateText text op
    | e => s.render .whole e

/-- The text of an assignment. -/
def renderAssignment (s : Setting) (a : Assignment) : Except RenderError String :=
  s.render .whole (.assign a.pos a.target a.op a.value)

/-- The text of a change by one. -/
def renderUpdate (s : Setting) (u : Update) : Except RenderError String := do
  let text ← s.render .whole u.target
  return updateText text u.op

/-! ## The structured header -/

/-- The first part of a structured header. -/
def initText (s : Setting) : Option ForInit → Except RenderError String
  | some (.declaration d) => do
    let value ← d.value.elim (.ok "0") (s.render .value)
    return d.name ++ " = " ++ value
  | some (.assignment a) => s.renderAssignment a
  | _ => .ok ""

/-- The last part of a structured header. -/
def stepText (s : Setting) : Option ForUpdate → Except RenderError String
  | some (.update u) => s.renderUpdate u
  | some (.expression e) => s.renderStatement e
  | _ => .ok ""

/-- The three parts of a structured header. -/
def structuredHeader (s : Setting) (init : Option ForInit) (test : Option Expr)
    (update : Option ForUpdate) : Except RenderError String := do
  let first ← s.initText init
  let middle ← test.elim (.ok "") (s.render .whole)
  let last ← s.stepText update
  return first ++ " ; " ++ middle ++ " ; " ++ last

/-! ## The counting header -/

/-- The variable of a loop and its first value.  A loop without a first step starts
wherever its variable is. -/
def loopStart (s : Setting) (init : Option ForInit) (test : Option Expr)
    (update : Option ForUpdate) : Except RenderError (String × String) :=
  match init with
  | some (.declaration d) => do
    let value ← d.value.elim (.ok "0") (s.render .whole)
    return (d.name, value)
  | some (.assignment a) => do
    let name ← s.render .whole a.target
    let value ← s.render .whole a.value
    return (name, value)
  | _ =>
    let name := loopVariable test update
    .ok (name, if name = "" then "0" else name)

end Setting

/-- The step between the values of the variable `name` and its direction, as the
update of a loop at `p` gives them.  An update that says neither counts up by one. -/
def loopStep (p : Pos) (update : Option ForUpdate) (name : String) : Expr × Direction :=
  let one : Expr := .literal p "1"
  match update with
  | some (.update u) => (one, u.op.direction)
  | some (.expression (.update _ op _)) => (one, op.direction)
  | some (.expression (.assign _ _ .add value)) => (value, .up)
  | some (.expression (.assign _ _ .sub value)) => (value, .down)
  | some (.expression (.assign _ target .set (.binary _ op left right))) =>
    if target.isNamed name && left.isNamed name then
      match op with
      | .add => (right, .up)
      | .sub => (right, .down)
      | _ => (one, .up)
    else (one, .up)
  | _ => (one, .up)

/-- A comparison of the variable `name` with a bound, as the test of a loop gives
it.  If the variable stands only on the right, the comparison is turned round. -/
def loopBound? (test : Option Expr) (name : String) : Option (BinaryOp × Expr) :=
  match test with
  | some (.binary _ op left right) =>
    if !op.isRelational then none
    else if !left.isNamed name && right.isNamed name then some (op.swapped, left)
    else some (op, right)
  | _ => none

namespace Setting

/-- The last value of a loop that stops before `bound`, written as a difference from
it. -/
def writtenEnd (s : Setting) (op : BinaryOp) (bound step : Expr) : Except RenderError String := do
  let text ← s.render .whole bound
  let stepText ← s.render .prefixed step
  return text ++ (if op = .lt then " - " else " + ") ++ stepText

/-- The last value of a loop that stops before `bound`: one step short of it, worked
out if both are numbers and the step is positive. -/
def endBefore (s : Setting) (op : BinaryOp) (bound step : Expr) : Except RenderError String := do
  let boundValue ← bound.numericValue
  let stepValue ← step.numericValue
  match boundValue, stepValue with
  | some b, some d =>
    if d.isPositive then
      return (if op = .lt then b.sub d else b.add d).plainText
    else
      s.writtenEnd op bound step
  | _, _ => s.writtenEnd op bound step

/-- The last value of a loop and its direction.  A test for equality gives no last
value, and one for inequality stops before the bound. -/
def loopEnd (s : Setting) (test : Option Expr) (name : String) (step : Expr)
    (direction : Direction) : Except RenderError (String × Direction) :=
  match loopBound? test name with
  | none => .ok ("", direction)
  | some (op, bound) => do
    match op with
    | .eq => return ("", direction)
    | .le => return (← s.render .whole bound, direction)
    | .ge => return (← s.render .whole bound, .down)
    | .gt => return (← s.endBefore .gt bound step, .down)
    | .ne =>
      match direction with
      | .down => return (← s.endBefore .gt bound step, .down)
      | .up => return (← s.endBefore .lt bound step, .up)
    | _ => return (← s.endBefore .lt bound step, direction)

/-- Variable, first value, last value and step of a counting loop at `p`. -/
def countingHeader (s : Setting) (p : Pos) (init : Option ForInit) (test : Option Expr)
    (update : Option ForUpdate) : Except RenderError String := do
  let (name, start) ← s.loopStart init test update
  let (step, direction) := loopStep p update name
  let (last, direction) ← s.loopEnd test name step direction
  let header := name ++ " from " ++ start ++ " " ++ direction.word ++ " " ++ last
  let stepValue ← step.numericValue
  if stepValue = some (.ofNat 1) then
    return Text.trim header
  else
    let stepText ← s.render .whole step
    return Text.trim (header ++ " step " ++ stepText)

end Setting

end Pseudocode
