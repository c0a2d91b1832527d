import Pseudocode.Program.Expr
set_option autoImplicit false

/-!
# Statements and programs (SPEC §3.2)

A program is a list of statements; the class and the method around them, if any,
are not kept.
-/

namespace Pseudocode

/-- A declaration of a variable, with its initial value if it has one. -/
structure Declaration where
  pos : Pos
  name : String
  typeName : String
  dims : Nat
  value : Option Expr
  deriving Repr, Inhabited

/-- An assignment as a statement. -/
structure Assignment where
  pos : Pos
  target : Expr
  op : AssignOp
  value : Expr
  deriving Repr, Inhabited

/-- A change by one as a statement. -/
structure Update where
  pos : Pos
  target : Expr
  op : UpdateOp
  deriving Repr, Inhabited

/-- What a counting loop does first. -/
inductive ForInit where
  | declaration (d : Declaration)
  | assignment (a : Assignment)
  | unsupported (kind : String)
  deriving Repr, Inhabited

/-- What a counting loop does after each round. -/
inductive ForUpdate where
  | update (u : Update)
  | expression (e : Expr)
  | unsupported (kind : String)
  deriving Repr, Inhabited

/-- Statements.

- `block`: statements between braces.
- `declaration`, `assignment`, `update`: as above.
- `expression`: an expression on its own; `call`: a chain of calls on a name.
- `ifElse`, `whileLoop`, `doWhileLoop`, `forLoop`: branches and loops.
- `unsupported`: a node of a kind that has no place among statements. -/
inductive Stmt where
  | block (pos : Pos) (body : List Stmt)
  | declaration (d : Declaration)
  | assignment (a : Assignment)
  | update (u : Update)
  | expression (pos : Pos) (e : Expr)
  | call (pos : Pos) (e : Expr)
  | ifElse (pos : Pos) (test : Expr) (consequent : Stmt) (alternate : Option Stmt)
  | whileLoop (pos : Pos) (test : Expr) (body : Stmt)
  | doWhileLoop (pos : Pos) (body : Stmt) (test : Expr)
  | forLoop (pos : Pos) (init : Option ForInit) (test : Option Expr) (update : Option ForUpdate)
      (body : Stmt)
  | unsupported (kind : String)
  deriving Repr, Inhabited

/-- A program: its statements and where it starts. -/
structure Program where
  pos : Pos
  body : List Stmt
  deriving Repr, Inhabited

end Pseudocode
