import Pseudocode.Program.Operator
import Pseudocode.Reader.Basic
set_option autoImplicit false

/-!
# Looking ahead (SPEC §4.4)

Statements that start with a name are told apart by what stands behind it.  Nothing
here takes a token away.
-/

namespace Pseudocode

/-- The keywords that name a type. -/
def typeKeywords : List String :=
  ["int", "double", "float", "boolean", "char", "String"]

/-- The words that may stand before a class, a method or a program. -/
def modifiers : List String :=
  ["public", "static", "private", "protected", "final"]

namespace Token

/-- A keyword that names a type. -/
def isType (t : Token) : Bool :=
  t.kind == .keyword && typeKeywords.contains t.text

/-- A word before a class, a method or a program. -/
def isModifier (t : Token) : Bool :=
  (t.kind == .keyword || t.kind == .identifier) && modifiers.contains t.text

/-- The tokens behind the subscripts at the front of a list.  The brackets need
only be balanced; `depth` of them are open.  An open bracket without a partner
takes all tokens up to `eof`. -/
def skipSubscripts : (depth : Nat) → List Token → List Token
  | _, [] => []
  | 0, t :: ts => if Pattern.openBracket.fits t then skipSubscripts 1 ts else t :: ts
  | depth + 1, t :: ts =>
    if t.kind = .eof then t :: ts
    else if Pattern.openBracket.fits t then skipSubscripts (depth + 2) ts
    else if Pattern.closeBracket.fits t then skipSubscripts depth ts
    else skipSubscripts (depth + 1) ts

/-- An empty pair of square brackets at the front of a list. -/
def startsWithPair : List Token → Bool
  | t :: u :: _ => t.text == "[" && u.text == "]"
  | _ => false

/-- The tokens behind the empty pairs of square brackets at the front of a list. -/
def skipEmptyPairs : List Token → List Token
  | t :: u :: ts => if t.text = "[" ∧ u.text = "]" then skipEmptyPairs ts else t :: u :: ts
  | ts => ts

end Token

namespace Reading

/-- The token behind the one at hand and the subscripts that follow it. -/
def behindTarget : Reading Token := do
  match Token.skipSubscripts 0 ((← unread).drop 1) with
  | [] => exhausted
  | t :: _ => return t

/-- A name, possibly with subscripts, that is changed by one. -/
def updateAhead : Reading Bool := do
  return (← behindTarget).updateOp?.isSome

/-- A name, possibly with subscripts, that is assigned to. -/
def assignmentAhead : Reading Bool := do
  return (← behindTarget).assignOp?.isSome

/-- A name with a field or a method. -/
def callAhead : Reading Bool := do
  return (← peek 1).kind == .dot

/-- A name that serves as a type: another name follows, at once or behind empty
pairs of square brackets. -/
def classDeclarationAhead : Reading Bool := do
  if (← peek 1).kind = .identifier then
    return true
  else
    let behind := (← unread).drop 1
    return Token.startsWithPair behind &&
      (Token.skipEmptyPairs behind).head?.any (·.kind == .identifier)

/-- A keyword that names a type. -/
def atType : Reading Bool := do
  return (← current).isType

/-- The head of a method: `void`, or a type, a name and an opening bracket. -/
def atMethod : Reading Bool := do
  let t ← current
  if (Pattern.keyword "void").fits t then
    return true
  else if t.isType || t.kind == .identifier then
    return (← peek 1).kind == .identifier && (← peek 2).text == "("
  else
    return false

/-- Takes the modifiers at hand. -/
def skipModifiers : Reading Unit := do
  let _ ← collect fun t => if t.isModifier then some () else none

end Reading

end Pseudocode
