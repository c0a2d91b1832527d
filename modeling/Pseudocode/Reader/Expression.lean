import Pseudocode.Program.Expr
import Pseudocode.Reader.Lookahead
set_option autoImplicit false

/-!
# Reading expressions (SPEC §4.4)

From loose to tight: assignment, which groups to the right; six levels of operators
between operands, which group to the left; operators before an operand; and the
operands themselves with their calls, fields and subscripts.

An expression inside an expression (in brackets, as an argument, as the value of an
assignment) is read by a reading handed in from outside.  Such an expression starts
behind at least one token of the outer one, so the tokens at hand serve as a clock
for the nesting, too.
-/

namespace Pseudocode.Reading

/-- The readings for what is nested in an expression: expressions, and lists of
elements between braces. -/
structure Nested where
  expression : Reading Expr
  initializer : Reading Expr

/-! ## Calls, subscripts and fields -/

/-- The arguments of a call, behind its opening bracket. -/
def argumentsWith (inner : Nested) : Reading (List Expr) := do
  if (← accept .closeParen).isSome then
    return []
  else
    let first ← inner.expression
    let others ← many Pattern.comma.fits do
      let _ ← advance
      inner.expression
    let _ ← expect .closeParen (.expected "')' after arguments")
    return first :: others

/-- A chain of subscripts. -/
def subscriptsWith (inner : Nested) : Reading (List Expr) :=
  many Pattern.openBracket.fits do
    let _ ← advance
    let index ← inner.expression
    let _ ← expect .closeBracket (.expected "']' in array access")
    return index

/-- One call, field or chain of subscripts behind `node`, if there is one.  Only a
name can be called. -/
def extendWith (inner : Nested) (node : Expr) : Reading (Option Expr) := do
  let t ← current
  if Pattern.openParen.fits t then
    match node with
    | .name p name =>
      let _ ← advance
      let args ← argumentsWith inner
      return some (.call p name args)
    | _ => refuse .unsupportedCallee
  else if Pattern.dot.fits t then
    let _ ← advance
    let name ← expect .name (.expected "property name")
    if (← accept .openParen).isSome then
      let args ← argumentsWith inner
      return some (.methodCall node.pos node name.text args)
    else if name.text = "length" then
      return some (.length node.pos node)
    else
      return some (.property node.pos node name.text)
  else if Pattern.openBracket.fits t then
    let indices ← subscriptsWith inner
    return some (.index node.pos node indices)
  else
    return none

/-- Everything that can stand behind `base`, a change by one last. -/
def suffixesWith (inner : Nested) (base : Expr) : Reading Expr := do
  let node ← iterate (extendWith inner) base
  match (← current).updateOp? with
  | some op =>
    let _ ← advance
    return .update node.pos op node
  | none => return node

/-! ## Operands -/

/-- A pair of square brackets behind a type, with a size or without. -/
def dimensionWith (inner : Nested) : Reading (Option Expr) := do
  let _ ← advance
  if (← accept .closeBracket).isSome then
    return none
  else
    let size ← inner.expression
    let _ ← expect .closeBracket (.expected "']' after array size")
    return some size

/-- A fresh object or array, behind the word `new` at position `p`.  An array has
all its sizes, or no last size and a list of elements. -/
def freshWith (inner : Nested) (p : Pos) : Reading Expr := do
  let t ← current
  if t.kind = .identifier ∧ (← peek 1).text = "(" then
    let _ ← advance
    let _ ← advance
    let args ← argumentsWith inner
    return .newObject p t.text args
  else if t.kind = .keyword ∨ t.kind = .identifier then
    let _ ← advance
    let dims ← many Pattern.openBracket.fits (dimensionWith inner)
    match dims.getLast? with
    | none => refuse (.expected "'[' after array type")
    | some last =>
      if last.isNone && (← isAt .openBrace) then
        inner.initializer
      else
        match dims.mapM id with
        | some sizes => return .newArray p t.text sizes
        | none => refuse (.expected "array initializer")
  else
    refuse (.expected "type after new")

/-- An operand with all that stands behind it. -/
def primaryWith (inner : Nested) : Reading Expr := do
  let t ← current
  if (Pattern.keyword "new").fits t then
    let _ ← advance
    freshWith inner t.pos
  else if t.kind = .number ∨ t.kind = .string ∨ (Pattern.keyword "true").fits t
      ∨ (Pattern.keyword "false").fits t then
    let _ ← advance
    return .literal t.pos t.text
  else if t.kind = .identifier then
    let _ ← advance
    suffixesWith inner (.name t.pos t.text)
  else if Pattern.openParen.fits t then
    let _ ← advance
    let e ← inner.expression
    let _ ← expect .closeParen (.expected "')' after expression")
    suffixesWith inner e
  else
    refuse (.unexpected t.description)

/-- An operand with the operators before it. -/
def unaryWith (inner : Nested) : Reading Expr := do
  let signs ← collect fun t => t.unaryOp?.map (t.pos, ·)
  let operand ← primaryWith inner
  return signs.foldr (fun sign e => .unary sign.1 sign.2 e) operand

/-! ## Operators between operands -/

/-- Operands joined by operators of one level, grouped to the left. -/
def leftAssoc (operator? : Token → Option BinaryOp) (operand : Reading Expr) : Reading Expr := do
  let first ← operand
  iterate (fun left => do
    match operator? (← current) with
    | none => return none
    | some op =>
      let _ ← advance
      let right ← operand
      return some (.binary left.pos op left right)) first

/-- The loosest of the levels of operators. -/
def loosest : Nat := 6

/-- Expressions whose operators bind more tightly than precedence `loosest - n`. -/
def levelWith (inner : Nested) : (n : Nat) → Reading Expr
  | 0 => unaryWith inner
  | n + 1 =>
    leftAssoc (fun t => t.binaryOp?.filter (·.precedence == loosest - n)) (levelWith inner n)

/-- An expression, which may assign. -/
def assigningWith (inner : Nested) : Reading Expr := do
  let left ← levelWith inner loosest
  match (← current).assignOp? with
  | none => return left
  | some op =>
    if left.isTarget then
      let _ ← advance
      let value ← inner.expression
      return .assign left.pos left op value
    else
      refuse .invalidTarget

/-! ## Elements between braces -/

/-- An element: another list of elements or an expression. -/
def elementWith (inner : Nested) : Reading Expr := do
  if ← isAt .openBrace then
    inner.initializer
  else
    inner.expression

/-- A list of elements between braces. -/
def elementsWith (inner : Nested) : Reading Expr := do
  let p ← here
  let _ ← expect .openBrace (.expected "'\x7b' to start array literal")
  if (← accept .closeBrace).isSome then
    return .arrayLiteral p []
  else
    let first ← elementWith inner
    let others ← many Pattern.comma.fits do
      let _ ← advance
      elementWith inner
    let _ ← expect .closeBrace (.expected "'\x7d' after array literal")
    return .arrayLiteral p (first :: others)

/-! ## Nesting -/

mutual

/-- An expression, nested no deeper than the clock allows. -/
def expressionWithin : (clock : List Token) → Reading Expr
  | [] => exhausted
  | _ :: clock => assigningWith ⟨expressionWithin clock, initializerWithin clock⟩

/-- A list of elements between braces, nested no deeper than the clock allows. -/
def initializerWithin : (clock : List Token) → Reading Expr
  | [] => exhausted
  | _ :: clock => elementsWith ⟨expressionWithin clock, initializerWithin clock⟩

end

/-- Nesting as deep as the clock allows. -/
def nestedWithin (clock : List Token) : Nested :=
  ⟨expressionWithin clock, initializerWithin clock⟩

/-- An expression. -/
def expression : Reading Expr :=
  fun ts => expressionWithin ts ts

/-- A list of elements between braces. -/
def initializer : Reading Expr :=
  fun ts => initializerWithin ts ts

/-- The arguments of a call, behind its opening bracket. -/
def arguments : Reading (List Expr) :=
  fun ts => argumentsWith (nestedWithin ts) ts

/-- A chain of subscripts. -/
def subscripts : Reading (List Expr) :=
  fun ts => subscriptsWith (nestedWithin ts) ts

/-- Everything that can stand behind `base`. -/
def suffixes (base : Expr) : Reading Expr :=
  fun ts => suffixesWith (nestedWithin ts) base ts

/-- An operand with all that stands behind it. -/
def primary : Reading Expr :=
  fun ts => primaryWith (nestedWithin ts) ts

/-- Expressions whose operators bind more tightly than precedence `loosest - n`. -/
def level (n : Nat) : Reading Expr :=
  fun ts => levelWith (nestedWithin ts) n ts

end Pseudocode.Reading
