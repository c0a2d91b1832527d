import Pseudocode.Program.Operator
set_option autoImplicit false

/-!
# Expressions (SPEC §3.2)

Every expression carries the position where it starts.  Brackets of the source are
not kept: the tree alone says what belongs together.
-/

namespace Pseudocode

/-- Expressions.

- `name`: a variable.
- `literal`: a number, string, character or truth value, as it is written.
- `index`: an array with its subscripts.
- `call`, `methodCall`, `property`, `length`: a function call, a call on a
  receiver, a field, and the length of an array.
- `newArray`, `arrayLiteral`, `newObject`: fresh arrays and objects.
- `unary`, `update`, `binary`: operators before, behind and between operands.
- `assign`: an assignment used as a value.
- `unsupported`: a node of a kind that has no place among expressions. -/
inductive Expr where
  | name (pos : Pos) (name : String)
  | literal (pos : Pos) (raw : String)
  | index (pos : Pos) (base : Expr) (indices : List Expr)
  | call (pos : Pos) (name : String) (args : List Expr)
  | methodCall (pos : Pos) (receiver : Expr) (name : String) (args : List Expr)
  | property (pos : Pos) (receiver : Expr) (name : String)
  | length (pos : Pos) (operand : Expr)
  | newArray (pos : Pos) (elementType : String) (dims : List Expr)
  | arrayLiteral (pos : Pos) (elements : List Expr)
  | newObject (pos : Pos) (typeName : String) (args : List Expr)
  | unary (pos : Pos) (op : UnaryOp) (operand : Expr)
  | update (pos : Pos) (op : UpdateOp) (operand : Expr)
  | binary (pos : Pos) (op : BinaryOp) (left right : Expr)
  | assign (pos : Pos) (target : Expr) (op : AssignOp) (value : Expr)
  | unsupported (pos : Pos) (kind : String)
  deriving Repr, Inhabited

namespace Expr

/-- Where an expression starts. -/
def pos : Expr → Pos
  | .name p _ => p
  | .literal p _ => p
  | .index p _ _ => p
  | .call p _ _ => p
  | .methodCall p _ _ _ => p
  | .property p _ _ => p
  | .length p _ => p
  | .newArray p _ _ => p
  | .arrayLiteral p _ => p
  | .newObject p _ _ => p
  | .unary p _ _ => p
  | .update p _ _ => p
  | .binary p _ _ _ => p
  | .assign p _ _ _ => p
  | .unsupported p _ => p

/-- What can be assigned to: a variable or an element of an array. -/
def isTarget : Expr → Bool
  | .name .. => true
  | .index .. => true
  | _ => false

/-- A comparison. -/
def isRelational : Expr → Bool
  | .binary _ op _ _ => op.isRelational
  | _ => false

/-- A string literal; a character literal is none. -/
def isStringLiteral : Expr → Bool
  | .literal _ raw => raw.toList.head? == some '"'
  | _ => false

/-- The variable of the given name.  No variable has an empty name. -/
def isNamed (variableName : String) : Expr → Bool
  | .name _ n => variableName != "" && n == variableName
  | _ => false

end Expr

end Pseudocode
