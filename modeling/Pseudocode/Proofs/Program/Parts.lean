import Pseudocode.Program.Stmt
set_option autoImplicit false

/-!
# The parts of a program

All statements of a program, all expressions in them, at whatever depth, and all names
that they use.
-/

namespace Pseudocode

/-! ## Expressions -/

namespace Expr

mutual

/-- The expression and all expressions inside it. -/
def parts : Expr → List Expr
  | .name p n => [.name p n]
  | .literal p raw => [.literal p raw]
  | .index p base indices => .index p base indices :: (parts base ++ allParts indices)
  | .call p n args => .call p n args :: allParts args
  | .methodCall p receiver n args =>
    .methodCall p receiver n args :: (parts receiver ++ allParts args)
  | .property p receiver n => .property p receiver n :: parts receiver
  | .length p operand => .length p operand :: parts operand
  | .newArray p elementType dims => .newArray p elementType dims :: allParts dims
  | .arrayLiteral p elements => .arrayLiteral p elements :: allParts elements
  | .newObject p typeName args => .newObject p typeName args :: allParts args
  | .unary p op operand => .unary p op operand :: parts operand
  | .update p op operand => .update p op operand :: parts operand
  | .binary p op l r => .binary p op l r :: (parts l ++ parts r)
  | .assign p target op value => .assign p target op value :: (parts target ++ parts value)
  | .unsupported p kind => [.unsupported p kind]

/-- The expressions and all expressions inside them. -/
def allParts : List Expr → List Expr
  | [] => []
  | e :: es => parts e ++ allParts es

end

theorem allParts_eq (es : List Expr) : allParts es = es.flatMap parts := by
  induction es with
  | nil => rfl
  | cons e es ih => rw [allParts, ih, List.flatMap_cons]

/-- The expressions that an expression is directly made of. -/
def children : Expr → List Expr
  | .name .. | .literal .. | .unsupported .. => []
  | .index _ base indices => base :: indices
  | .call _ _ args | .newObject _ _ args => args
  | .methodCall _ receiver _ args => receiver :: args
  | .newArray _ _ dims => dims
  | .arrayLiteral _ elements => elements
  | .property _ e _ | .length _ e | .unary _ _ e | .update _ _ e => [e]
  | .binary _ _ l r => [l, r]
  | .assign _ target _ value => [target, value]

theorem parts_eq (e : Expr) : e.parts = e :: e.children.flatMap parts := by
  cases e <;> simp [parts, children, allParts_eq]

theorem mem_parts_self (e : Expr) : e ∈ e.parts := by
  rw [parts_eq]
  exact List.mem_cons_self

/-- The names that an expression itself uses: a variable, a function, a method, a field, the
type of an array or of an object. -/
def ownWords : Expr → List String
  | .name _ n | .call _ n _ | .methodCall _ _ n _ | .property _ _ n => [n]
  | .newArray _ elementType _ => [elementType]
  | .newObject _ typeName _ => [typeName]
  | _ => []

/-- The names in an expression. -/
def words (e : Expr) : List String :=
  e.parts.flatMap ownWords

/-- The arguments of a call or the elements of a list. -/
def items : Expr → List Expr
  | .call _ _ args | .methodCall _ _ _ args | .newObject _ _ args => args
  | .arrayLiteral _ elements => elements
  | _ => []

theorem mem_parts_of_items {e d : Expr} (h : d ∈ e.items.flatMap parts) : d ∈ e.parts := by
  have hitems : ∀ c ∈ e.items, c ∈ e.children := by
    cases e <;> simp +contextual [items, children]
  obtain ⟨c, hc, hd⟩ := List.mem_flatMap.mp h
  rw [parts_eq]
  exact List.mem_cons_of_mem _ (List.mem_flatMap.mpr ⟨c, hitems c hc, hd⟩)

end Expr

/-! ## Statements -/

/-- The expressions with which a loop starts. -/
def ForInit.operands : ForInit → List Expr
  | .declaration d => d.value.toList
  | .assignment a => [a.target, a.value]
  | .unsupported _ => []

/-- The expressions with which a loop goes on. -/
def ForUpdate.operands : ForUpdate → List Expr
  | .update u => [u.target]
  | .expression e => [e]
  | .unsupported _ => []

namespace Stmt

mutual

/-- The statement and all statements inside it. -/
def parts : Stmt → List Stmt
  | .block p body => .block p body :: allParts body
  | .declaration d => [.declaration d]
  | .assignment a => [.assignment a]
  | .update u => [.update u]
  | .expression p e => [.expression p e]
  | .call p e => [.call p e]
  | .ifElse p test consequent alternate =>
    .ifElse p test consequent alternate :: (parts consequent ++ optionParts alternate)
  | .whileLoop p test body => .whileLoop p test body :: parts body
  | .doWhileLoop p body test => .doWhileLoop p body test :: parts body
  | .forLoop p init test step body => .forLoop p init test step body :: parts body
  | .unsupported kind => [.unsupported kind]

/-- The statements and all statements inside them. -/
def allParts : List Stmt → List Stmt
  | [] => []
  | s :: ss => parts s ++ allParts ss

/-- The statement, if there is one, and all statements inside it. -/
def optionParts : Option Stmt → List Stmt
  | none => []
  | some s => parts s

end

theorem allParts_eq (ss : List Stmt) : allParts ss = ss.flatMap parts := by
  induction ss with
  | nil => rfl
  | cons s ss ih => rw [allParts, ih, List.flatMap_cons]

/-- The statements that a statement is directly made of. -/
def children : Stmt → List Stmt
  | .block _ body => body
  | .ifElse _ _ consequent alternate => consequent :: alternate.toList
  | .whileLoop _ _ body | .doWhileLoop _ body _ | .forLoop _ _ _ _ body => [body]
  | _ => []

theorem parts_eq (s : Stmt) : s.parts = s :: s.children.flatMap parts := by
  cases s with
  | ifElse p test consequent alternate => cases alternate <;> simp [parts, optionParts, children]
  | _ => simp [parts, children, allParts_eq]

/-- The expressions of a statement that are inside no other statement and no other
expression. -/
def operands : Stmt → List Expr
  | .declaration d => d.value.toList
  | .assignment a => [a.target, a.value]
  | .update u => [u.target]
  | .expression _ e | .call _ e => [e]
  | .ifElse _ test _ _ | .whileLoop _ test _ | .doWhileLoop _ _ test => [test]
  | .forLoop _ init test step _ =>
    init.toList.flatMap ForInit.operands ++ test.toList ++ step.toList.flatMap ForUpdate.operands
  | .block .. | .unsupported _ => []

/-- The declaration that a statement is or starts with. -/
def declared : Stmt → Option Declaration
  | .declaration d | .forLoop _ (some (.declaration d)) _ _ _ => some d
  | _ => none

/-- The expressions of a statement that are inside no other statement. -/
def ownExprs (s : Stmt) : List Expr :=
  s.operands.flatMap Expr.parts

/-- The expressions in a statement. -/
def exprs (s : Stmt) : List Expr :=
  s.parts.flatMap ownExprs

theorem exprs_eq (s : Stmt) : s.exprs = s.ownExprs ++ s.children.flatMap exprs := by
  rw [exprs, parts_eq, List.flatMap_cons, List.flatMap_assoc]
  rfl

/-- The names in a statement that are inside no other statement, with the name and the type
of what it declares. -/
def ownWords (s : Stmt) : List String :=
  s.operands.flatMap Expr.words ++ s.declared.toList.flatMap fun d => [d.name, d.typeName]

/-- The names in a statement. -/
def words (s : Stmt) : List String :=
  s.parts.flatMap ownWords

end Stmt

namespace Program

/-- All expressions of a program. -/
def exprs (program : Program) : List Expr :=
  program.body.flatMap Stmt.exprs

/-- All names in a program: those of variables, functions, methods and fields, and those of
the types of variables, arrays and objects. -/
def words (program : Program) : List String :=
  program.body.flatMap Stmt.words

end Program

end Pseudocode
