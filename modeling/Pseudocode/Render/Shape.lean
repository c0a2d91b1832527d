import Pseudocode.Number.Numeral
import Pseudocode.Program.Stmt
import Pseudocode.Text.Quoted
set_option autoImplicit false

/-!
# The shapes that rendering looks at (SPEC §4.5)

Some expressions are not written out but for what they mean: reading input, printing
text that is put together, testing the end of a loop, counting.  This module finds
out what an expression is, without writing any of it.
-/

namespace Pseudocode

/-- Why a program cannot be rendered.  None of the reasons arises from a program that
was read from a text and one of the styles of the catalogue. -/
inductive RenderError where
  | unsupportedStatement (kind : String)
  | unsupportedExpression (kind : String)
  | unsupportedForm (form : String)
  | unknownAssignment (symbol : String)
  | missingArgument
  | malformedNumeral (raw : String)
  deriving DecidableEq, Repr, Inhabited

/-- The wording of the reason. -/
def RenderError.message : RenderError → String
  | .unsupportedStatement kind => "unsupported statement: " ++ kind
  | .unsupportedExpression kind => "unsupported expression: " ++ kind
  | .unsupportedForm form => "unsupported ADT rule kind: " ++ form
  | .unknownAssignment symbol => Text.quoted symbol
  | .missingArgument => "list index out of range"
  | .malformedNumeral raw => "could not convert string to float: " ++ Text.quoted raw

namespace Expr

/-- The names of a variable and the fields taken from it; empty for anything else. -/
def propertyChain : Expr → List String
  | .name _ n => [n]
  | .property _ receiver n =>
    match propertyChain receiver with
    | [] => []
    | names => names ++ [n]
  | _ => []

/-- The methods that read input. -/
def inputMethods : List String :=
  ["next", "nextLine", "nextInt", "nextDouble", "nextBoolean", "nextFloat", "nextLong", "readLine"]

/-- A call that reads input from a variable, or a character taken from one. -/
def isInputCall : Expr → Bool
  | .methodCall _ receiver n _ =>
    (inputMethods.contains n && match receiver with
      | .name .. => true
      | _ => false) ||
      (n == "charAt" && isInputCall receiver)
  | _ => false

/-- The parts of a sum as they are put together from the left, and whether they make
a string.  All that stands before the first string literal is one part. -/
def concatParts : Expr → List Expr × Bool
  | .binary p .add l r =>
    let (parts, isString) := concatParts l
    if isString then (parts ++ [r], true)
    else if r.isStringLiteral then ([l, r], true)
    else ([.binary p .add l r], false)
  | e => ([e], e.isStringLiteral)

/-- The condition that holds just when the given one does not. -/
def inverted : Expr → Expr
  | .unary _ .not operand => operand
  | .binary p op l r =>
    match op.inverse? with
    | some inverse => .binary p inverse l r
    | none => .unary p .not (.binary p op l r)
  | e => .unary e.pos .not e

/-- The number of operands of the chain of `op` that an expression is. -/
def chainLength (op : BinaryOp) : Expr → Nat
  | .binary _ op' l r => if op' = op then chainLength op l + chainLength op r else 1
  | _ => 1

/-- The value of a number, or of a number with signs before it. -/
def numericValue : Expr → Except RenderError (Option Binary64)
  | .unary _ .neg operand => do
    return (← numericValue operand).map Binary64.neg
  | .literal _ raw =>
    if Numeral.isIntended raw then
      match Numeral.value? raw with
      | some x => .ok (some x)
      | none => .error (.malformedNumeral raw)
    else .ok none
  | _ => .ok none

end Expr

/-- The variable that an update changes. -/
def ForUpdate.target? : ForUpdate → Option Expr
  | .update u => some u.target
  | .expression (.assign _ target _ _) => some target
  | .expression (.update _ _ operand) => some operand
  | _ => none

/-- The name of a variable, if the expression is one. -/
def Expr.variable? : Expr → Option String
  | .name _ n => some n
  | _ => none

/-- The sides of a comparison. -/
def Expr.comparedSides : Expr → List Expr
  | .binary _ op l r => if op.isRelational then [l, r] else []
  | _ => []

/-- The variable that a loop without a first step counts with: the one that it
changes, or else the first one that it tests.  Without either it is the empty
name. -/
def loopVariable (test : Option Expr) (update : Option ForUpdate) : String :=
  let changed := (update.bind ForUpdate.target?).bind Expr.variable?
  let tested := (test.elim [] Expr.comparedSides).findSome? Expr.variable?
  (changed.or tested).getD ""

end Pseudocode
