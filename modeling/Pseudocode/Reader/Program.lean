import Pseudocode.Reader.Statement
set_option autoImplicit false

/-!
# Reading programs (SPEC §4.4)

A program is a class with a body, a method with a body, or a list of statements.
Of the class and the method only the statements inside are kept; the parameters of
a method are passed over.
-/

namespace Pseudocode

namespace Reading

/-- A block. -/
def block : Reading (Pos × List Stmt) :=
  blockWith statement

/-- Takes everything up to the bracket that closes the parameters, of which `depth`
brackets are open. -/
def skipParameters : (depth : Nat) → Reading Unit
  | 0, ts => .ok ((), ts)
  | _ + 1, [] => .error .exhausted
  | depth + 1, t :: ts =>
    if t.kind = .eof then .error (.refused (.expected "')' after parameters") t ts)
    else if Pattern.openParen.fits t then skipParameters (depth + 2) ts
    else if Pattern.closeParen.fits t then skipParameters depth ts
    else skipParameters (depth + 1) ts

/-- The statements of a method. -/
def method : Reading (List Stmt) := do
  let _ ← advance
  let _ ← expect .name (.expected "method name")
  let _ ← expect .openParen (.expected "'(' after method name")
  skipParameters 1
  let (_, body) ← block
  return body

/-- The statements of a class: those of its method, or those in its body. -/
def classBody : Reading (List Stmt) := do
  let _ ← expect (.keyword "class") (.expected "'class'")
  let _ ← expect .name (.expected "class name")
  let _ ← expect .openBrace (.expected "'\x7b' after class declaration")
  skipModifiers
  let body ← if ← atMethod then method else statementsWith statement
  let _ ← expect .closeBrace (.expected "'\x7d' to close class")
  return body

/-- The statements of a program. -/
def programBody : Reading (List Stmt) := do
  if ← isAt (.keyword "class") then
    classBody
  else if ← atMethod then
    method
  else
    many (·.kind != .eof) statement

/-- A program, behind which nothing may follow. -/
def program : Reading Program := do
  let p ← here
  skipModifiers
  let body ← programBody
  if ← isAt .eof then
    return ⟨p, body⟩
  else
    refuse .trailing

end Reading

/-- The program that the tokens spell. -/
def Program.ofTokens (tokens : List Token) : Except Stop Program :=
  (Reading.program tokens).map (·.1)

end Pseudocode
