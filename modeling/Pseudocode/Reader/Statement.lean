import Pseudocode.Program.Stmt
import Pseudocode.Reader.Expression
set_option autoImplicit false

/-!
# Reading statements (SPEC §4.4)

The token at hand decides what kind of statement it is.  Behind a name the choice
falls, in this order, on a declaration, a change by one, a call, an assignment and
an expression.

A statement inside a statement is read by a reading handed in from outside; it
starts behind at least one token of the outer one, and the tokens at hand serve as a
clock for the nesting.
-/

namespace Pseudocode.Reading

/-! ## Simple statements -/

/-- Empty pairs of square brackets; the answer is their number. -/
def dimensions : Reading Nat := do
  let pairs ← many Pattern.openBracket.fits do
    let _ ← advance
    expect .closeBracket (.expected "']' after '[' in array declaration")
  return pairs.length

/-- The value of a declaration. -/
def initialValue : Reading (Option Expr) := do
  if (← accept (.operator "=")).isSome then
    if ← isAt .openBrace then
      return some (← initializer)
    else
      return some (← expression)
  else
    return none

/-- A declaration; whatever token is at hand is taken for the type. -/
def declaration : Reading Declaration := do
  let p ← here
  let type ← advance
  let typeDims ← dimensions
  let name ← expect .name (.expected "identifier in declaration")
  let nameDims ← dimensions
  let value ← initialValue
  let _ ← expect .semicolon (.expected "';' after declaration")
  return ⟨p, name.text, type.text, typeDims + nameDims, value⟩

/-- A name, possibly with subscripts. -/
def target : Reading Expr := do
  let p ← here
  let name ← expect .name (.expected "identifier")
  if ← isAt .openBracket then
    return .index p (.name p name.text) (← subscripts)
  else
    return .name p name.text

/-- An assignment. -/
def assignment : Reading Assignment := do
  let p ← here
  let goal ← target
  match (← current).assignOp? with
  | none => refuse (.expected "assignment operator")
  | some op =>
    let _ ← advance
    let value ← expression
    let _ ← expect .semicolon (.expected "';' after assignment")
    return ⟨p, goal, op, value⟩

/-- The end of a change by one that is a statement of its own. -/
def updateEnd (closed : Bool) : Reading Unit := do
  if closed then
    let _ ← expect .semicolon (.expected "';' after update")

/-- A change by one with its operator behind; `closed` asks for a semicolon. -/
def update (closed : Bool) : Reading Update := do
  let p ← here
  let goal ← target
  match (← current).updateOp? with
  | none => refuse (.expected "++ or --")
  | some op =>
    let _ ← advance
    updateEnd closed
    return ⟨p, goal, op⟩

/-- A change by one with its operator in front; `closed` asks for a semicolon.
Whatever token is at hand is taken for the operator. -/
def leadingUpdate (closed : Bool) : Reading Update := do
  let p ← here
  let op ← advance
  let goal ← target
  updateEnd closed
  return ⟨p, goal, .ofSymbol op.text⟩

/-- A chain of calls and fields on a name. -/
def callStatement : Reading Stmt := do
  let p ← here
  let name ← expect .name (.expected "identifier")
  let e ← suffixes (.name p name.text)
  let _ ← expect .semicolon (.expected "';' after call")
  return .call p e

/-- An expression on its own. -/
def expressionStatement : Reading Stmt := do
  let p ← here
  let e ← expression
  let _ ← expect .semicolon (.expected "';' after expression")
  return .expression p e

/-! ## Statements with parts -/

/-- A condition in round brackets behind the word `word`. -/
def condition (word : String) : Reading Expr := do
  let _ ← expect .openParen (.expected ("'(' after " ++ word))
  let test ← expression
  let _ ← expect .closeParen (.expected "')' after condition")
  return test

/-- The statements up to a closing brace. -/
def statementsWith (inner : Reading Stmt) : Reading (List Stmt) :=
  many (fun t => !Pattern.closeBrace.fits t && t.kind != .eof) inner

/-- A block. -/
def blockWith (inner : Reading Stmt) : Reading (Pos × List Stmt) := do
  let p ← here
  let _ ← expect .openBrace (.expected "'\x7b' to start block")
  let body ← statementsWith inner
  let _ ← expect .closeBrace (.expected "'\x7d' to close block")
  return (p, body)

/-- A statement with a condition, and another one for when it fails. -/
def ifElseWith (inner : Reading Stmt) : Reading Stmt := do
  let p ← here
  let _ ← expect (.keyword "if") (.expected "'if'")
  let test ← condition "if"
  let consequent ← inner
  if (← accept (.keyword "else")).isSome then
    return .ifElse p test consequent (some (← inner))
  else
    return .ifElse p test consequent none

/-- A loop that tests first. -/
def whileLoopWith (inner : Reading Stmt) : Reading Stmt := do
  let p ← here
  let _ ← expect (.keyword "while") (.expected "'while'")
  let test ← condition "while"
  let body ← inner
  return .whileLoop p test body

/-- A loop that tests last. -/
def doWhileLoopWith (inner : Reading Stmt) : Reading Stmt := do
  let p ← here
  let _ ← expect (.keyword "do") (.expected "'do'")
  let body ← inner
  let _ ← expect (.keyword "while") (.expected "'while' after do-body")
  let test ← condition "while"
  let _ ← expect .semicolon (.expected "';' after do-while")
  return .doWhileLoop p body test

/-- What a counting loop does first, with its semicolon. -/
def forInit : Reading (Option ForInit) := do
  if (← accept .semicolon).isSome then
    return none
  else if ← atType then
    return some (.declaration (← declaration))
  else
    return some (.assignment (← assignment))

/-- The test of a counting loop, with its semicolon. -/
def forTest : Reading (Option Expr) := do
  if (← accept .semicolon).isSome then
    return none
  else
    let test ← expression
    let _ ← expect .semicolon (.expected "';' after for-condition")
    return some test

/-- What a counting loop does after each round. -/
def forUpdate : Reading ForUpdate := do
  let t ← current
  if t.updateOp?.isSome then
    return .update (← leadingUpdate false)
  else if t.kind = .identifier then
    if ← updateAhead then
      return .update (← update false)
    else
      return .expression (← expression)
  else
    return .expression (← expression)

/-- What a counting loop does after each round, with the closing bracket. -/
def forStep : Reading (Option ForUpdate) := do
  if (← accept .closeParen).isSome then
    return none
  else
    let step ← forUpdate
    let _ ← expect .closeParen (.expected "')' after for-update")
    return some step

/-- A counting loop. -/
def forLoopWith (inner : Reading Stmt) : Reading Stmt := do
  let p ← here
  let _ ← expect (.keyword "for") (.expected "'for'")
  let _ ← expect .openParen (.expected "'(' after for")
  let init ← forInit
  let test ← forTest
  let step ← forStep
  let body ← inner
  return .forLoop p init test step body

/-! ## Any statement -/

/-- A statement that starts with the keyword `word`. -/
def keywordStatementWith (inner : Reading Stmt) (word : String) : Reading Stmt := do
  if word = "if" then
    ifElseWith inner
  else if word = "while" then
    whileLoopWith inner
  else if word = "for" then
    forLoopWith inner
  else if word = "do" then
    doWhileLoopWith inner
  else if typeKeywords.contains word then
    return .declaration (← declaration)
  else
    refuse (.unsupportedKeyword word)

/-- A name `final` that stands before a declaration: a type keyword or, one token
later, a name follows. -/
def finalAhead (word : String) : Reading Bool := do
  return word == "final" &&
    (typeKeywords.contains (← peek 1).text || (← peek 2).kind == .identifier)

/-- A statement that starts with the name `word`. -/
def nameStatement (word : String) : Reading Stmt := do
  if ← finalAhead word then
    let _ ← advance
    return .declaration (← declaration)
  else if ← classDeclarationAhead then
    return .declaration (← declaration)
  else if ← updateAhead then
    return .update (← update true)
  else if ← callAhead then
    callStatement
  else if ← assignmentAhead then
    return .assignment (← assignment)
  else
    expressionStatement

/-- Any statement. -/
def statementWith (inner : Reading Stmt) : Reading Stmt := do
  let t ← current
  if t.kind = .keyword then
    keywordStatementWith inner t.text
  else if Pattern.openBrace.fits t then
    let (p, body) ← blockWith inner
    return .block p body
  else if t.updateOp?.isSome then
    return .update (← leadingUpdate true)
  else if t.kind = .identifier then
    nameStatement t.text
  else
    refuse (.unexpected t.description)

/-- A statement, nested no deeper than the clock allows. -/
def statementWithin : (clock : List Token) → Reading Stmt
  | [] => exhausted
  | _ :: clock => statementWith (statementWithin clock)

/-- A statement. -/
def statement : Reading Stmt :=
  fun ts => statementWithin ts ts

end Pseudocode.Reading
