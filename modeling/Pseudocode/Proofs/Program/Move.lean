import Pseudocode.Program.Stmt
import Pseudocode.Reader.Basic
set_option autoImplicit false

/-!
# Moving positions

Everything that is read from a text carries positions, and none of them decides
anything.  This module says what it is to move all positions of a token, a tree or a
program by a function `φ`.  Two functions matter most: the identity, which leaves
everything as it is, and a constant one, which forgets where things stood.
-/

namespace Pseudocode

/-- Values that may hold positions, with a way to move them all. -/
class Placed (α : Type) where
  move : (Pos → Pos) → α → α
  move_id : ∀ a, move id a = a

export Placed (move)

attribute [simp] Placed.move_id

/-- A value with all its positions forgotten. -/
abbrev unplaced {α : Type} [Placed α] (a : α) : α :=
  move (fun _ => Pos.start) a

/-! ## Values without positions, and containers -/

instance : Placed Pos := ⟨fun φ p => φ p, fun _ => rfl⟩

instance : Placed Bool := ⟨fun _ b => b, fun _ => rfl⟩

instance : Placed Nat := ⟨fun _ n => n, fun _ => rfl⟩

instance : Placed Unit := ⟨fun _ u => u, fun _ => rfl⟩

instance : Placed UnaryOp := ⟨fun _ op => op, fun _ => rfl⟩

instance {α β : Type} [Placed α] [Placed β] : Placed (α × β) where
  move φ x := (move φ x.1, move φ x.2)
  move_id x := by simp

instance {α : Type} [Placed α] : Placed (Option α) where
  move φ x := x.map (move φ)
  move_id x := by cases x <;> simp

instance {α : Type} [Placed α] : Placed (List α) where
  move φ xs := xs.map (move φ)
  move_id xs := by
    induction xs with
    | nil => rfl
    | cons x xs ih => simpa using ih

instance : Placed Token where
  move φ t := { t with pos := φ t.pos }
  move_id _ := rfl

section Simp

variable {α β : Type} [Placed α] [Placed β] (φ : Pos → Pos)

@[simp] theorem move_pos (p : Pos) : move φ p = φ p := rfl

@[simp] theorem Token.text_move (t : Token) : (move φ t).text = t.text := rfl

@[simp] theorem move_bool (b : Bool) : move φ b = b := rfl

@[simp] theorem move_nat (n : Nat) : move φ n = n := rfl

@[simp] theorem move_prod (a : α) (b : β) : move φ (a, b) = (move φ a, move φ b) := rfl

@[simp] theorem move_none : move φ (none : Option α) = none := rfl

@[simp] theorem move_some (a : α) : move φ (some a) = some (move φ a) := rfl

@[simp] theorem move_nil : move φ ([] : List α) = [] := rfl

@[simp] theorem move_cons (a : α) (as : List α) : move φ (a :: as) = move φ a :: move φ as := rfl

@[simp] theorem move_map {γ : Type} (f : γ → α) (cs : List γ) :
    move φ (cs.map f) = cs.map fun c => move φ (f c) :=
  List.map_map

@[simp] theorem move_append (as bs : List α) : move φ (as ++ bs) = move φ as ++ move φ bs :=
  List.map_append

@[simp] theorem isNone_move (a : Option α) : (move φ a).isNone = a.isNone :=
  Option.isNone_map

@[simp] theorem length_move (as : List α) : (move φ as).length = as.length :=
  List.length_map _

@[simp] theorem getLast?_move (as : List α) : (move φ as).getLast? = move φ as.getLast? :=
  List.getLast?_map

@[simp] theorem head?_move (as : List α) : (move φ as).head? = move φ as.head? :=
  List.head?_map

@[simp] theorem drop_move (n : Nat) (as : List α) : (move φ as).drop n = move φ (as.drop n) :=
  List.map_drop.symm

@[simp] theorem getElem?_move (as : List α) (n : Nat) : (move φ as)[n]? = move φ as[n]? :=
  List.getElem?_map

end Simp

/-! ## Expressions -/

namespace Expr

/-- Induction over expressions, with a hypothesis for every member of a list of
parts. -/
@[induction_eliminator]
theorem induct {motive : Expr → Prop}
    (name : ∀ p n, motive (.name p n))
    (literal : ∀ p raw, motive (.literal p raw))
    (index : ∀ p base indices, motive base → (∀ e ∈ indices, motive e) →
      motive (.index p base indices))
    (call : ∀ p n args, (∀ e ∈ args, motive e) → motive (.call p n args))
    (methodCall : ∀ p receiver n args, motive receiver → (∀ e ∈ args, motive e) →
      motive (.methodCall p receiver n args))
    (property : ∀ p receiver n, motive receiver → motive (.property p receiver n))
    (length : ∀ p operand, motive operand → motive (.length p operand))
    (newArray : ∀ p elementType dims, (∀ e ∈ dims, motive e) →
      motive (.newArray p elementType dims))
    (arrayLiteral : ∀ p elements, (∀ e ∈ elements, motive e) → motive (.arrayLiteral p elements))
    (newObject : ∀ p typeName args, (∀ e ∈ args, motive e) → motive (.newObject p typeName args))
    (unary : ∀ p op operand, motive operand → motive (.unary p op operand))
    (update : ∀ p op operand, motive operand → motive (.update p op operand))
    (binary : ∀ p op l r, motive l → motive r → motive (.binary p op l r))
    (assign : ∀ p target op value, motive target → motive value →
      motive (.assign p target op value))
    (unsupported : ∀ p kind, motive (.unsupported p kind)) (e : Expr) : motive e := by
  refine @Expr.rec motive (fun es => ∀ e ∈ es, motive e) name literal index call methodCall
    property length newArray arrayLiteral newObject unary update binary assign unsupported ?_ ?_ e
  · intro e he
    cases he
  · intro head tail hhead htail e he
    rcases List.mem_cons.mp he with rfl | he
    · exact hhead
    · exact htail e he

mutual

/-- An expression with its positions moved. -/
def move (φ : Pos → Pos) : Expr → Expr
  | .name p n => .name (φ p) n
  | .literal p raw => .literal (φ p) raw
  | .index p base indices => .index (φ p) (base.move φ) (moveAll φ indices)
  | .call p n args => .call (φ p) n (moveAll φ args)
  | .methodCall p receiver n args => .methodCall (φ p) (receiver.move φ) n (moveAll φ args)
  | .property p receiver n => .property (φ p) (receiver.move φ) n
  | .length p operand => .length (φ p) (operand.move φ)
  | .newArray p elementType dims => .newArray (φ p) elementType (moveAll φ dims)
  | .arrayLiteral p elements => .arrayLiteral (φ p) (moveAll φ elements)
  | .newObject p typeName args => .newObject (φ p) typeName (moveAll φ args)
  | .unary p op operand => .unary (φ p) op (operand.move φ)
  | .update p op operand => .update (φ p) op (operand.move φ)
  | .binary p op l r => .binary (φ p) op (l.move φ) (r.move φ)
  | .assign p target op value => .assign (φ p) (target.move φ) op (value.move φ)
  | .unsupported p kind => .unsupported (φ p) kind

/-- Expressions with their positions moved. -/
def moveAll (φ : Pos → Pos) : List Expr → List Expr
  | [] => []
  | e :: es => e.move φ :: moveAll φ es

end

mutual

theorem move_id : (e : Expr) → e.move id = e
  | .name .. | .literal .. | .unsupported .. => rfl
  | .index _ base indices => by simp [move, move_id base, moveAll_id indices]
  | .call _ _ args => by simp [move, moveAll_id args]
  | .methodCall _ receiver _ args => by simp [move, move_id receiver, moveAll_id args]
  | .property _ receiver _ => by simp [move, move_id receiver]
  | .length _ operand => by simp [move, move_id operand]
  | .newArray _ _ dims => by simp [move, moveAll_id dims]
  | .arrayLiteral _ elements => by simp [move, moveAll_id elements]
  | .newObject _ _ args => by simp [move, moveAll_id args]
  | .unary _ _ operand => by simp [move, move_id operand]
  | .update _ _ operand => by simp [move, move_id operand]
  | .binary _ _ l r => by simp [move, move_id l, move_id r]
  | .assign _ target _ value => by simp [move, move_id target, move_id value]

theorem moveAll_id : (es : List Expr) → moveAll id es = es
  | [] => rfl
  | e :: es => by rw [moveAll, move_id e, moveAll_id es]

end

end Expr

instance : Placed Expr := ⟨Expr.move, Expr.move_id⟩

namespace Expr

variable (φ : Pos → Pos)

@[simp] theorem moveAll_eq (es : List Expr) : moveAll φ es = Pseudocode.move φ es := by
  induction es with
  | nil => rfl
  | cons e es ih => rw [moveAll, ih]; rfl

@[simp] theorem move_name (p : Pos) (n : String) :
    Pseudocode.move φ (name p n) = name (φ p) n := rfl

@[simp] theorem move_literal (p : Pos) (raw : String) :
    Pseudocode.move φ (literal p raw) = literal (φ p) raw := rfl

@[simp] theorem move_index (p : Pos) (base : Expr) (indices : List Expr) :
    Pseudocode.move φ (index p base indices) =
      index (φ p) (Pseudocode.move φ base) (Pseudocode.move φ indices) := by
  rw [← moveAll_eq]; rfl

@[simp] theorem move_call (p : Pos) (n : String) (args : List Expr) :
    Pseudocode.move φ (call p n args) = call (φ p) n (Pseudocode.move φ args) := by
  rw [← moveAll_eq]; rfl

@[simp] theorem move_methodCall (p : Pos) (receiver : Expr) (n : String) (args : List Expr) :
    Pseudocode.move φ (methodCall p receiver n args) =
      methodCall (φ p) (Pseudocode.move φ receiver) n (Pseudocode.move φ args) := by
  rw [← moveAll_eq]; rfl

@[simp] theorem move_property (p : Pos) (receiver : Expr) (n : String) :
    Pseudocode.move φ (property p receiver n) =
      property (φ p) (Pseudocode.move φ receiver) n := rfl

@[simp] theorem move_length (p : Pos) (operand : Expr) :
    Pseudocode.move φ (length p operand) = length (φ p) (Pseudocode.move φ operand) := rfl

@[simp] theorem move_newArray (p : Pos) (elementType : String) (dims : List Expr) :
    Pseudocode.move φ (newArray p elementType dims) =
      newArray (φ p) elementType (Pseudocode.move φ dims) := by
  rw [← moveAll_eq]; rfl

@[simp] theorem move_arrayLiteral (p : Pos) (elements : List Expr) :
    Pseudocode.move φ (arrayLiteral p elements) =
      arrayLiteral (φ p) (Pseudocode.move φ elements) := by
  rw [← moveAll_eq]; rfl

@[simp] theorem move_newObject (p : Pos) (typeName : String) (args : List Expr) :
    Pseudocode.move φ (newObject p typeName args) =
      newObject (φ p) typeName (Pseudocode.move φ args) := by
  rw [← moveAll_eq]; rfl

@[simp] theorem move_unary (p : Pos) (op : UnaryOp) (operand : Expr) :
    Pseudocode.move φ (unary p op operand) = unary (φ p) op (Pseudocode.move φ operand) := rfl

@[simp] theorem move_update (p : Pos) (op : UpdateOp) (operand : Expr) :
    Pseudocode.move φ (update p op operand) = update (φ p) op (Pseudocode.move φ operand) := rfl

@[simp] theorem move_binary (p : Pos) (op : BinaryOp) (l r : Expr) :
    Pseudocode.move φ (binary p op l r) =
      binary (φ p) op (Pseudocode.move φ l) (Pseudocode.move φ r) := rfl

@[simp] theorem move_assign (p : Pos) (target : Expr) (op : AssignOp) (value : Expr) :
    Pseudocode.move φ (assign p target op value) =
      assign (φ p) (Pseudocode.move φ target) op (Pseudocode.move φ value) := rfl

@[simp] theorem move_unsupported (p : Pos) (kind : String) :
    Pseudocode.move φ (unsupported p kind) = unsupported (φ p) kind := rfl

@[simp] theorem pos_move (e : Expr) : (Pseudocode.move φ e).pos = φ e.pos := by
  cases e <;> rfl

@[simp] theorem isTarget_move (e : Expr) : (Pseudocode.move φ e).isTarget = e.isTarget := by
  cases e <;> rfl

end Expr

/-! ## Statements and programs -/

instance : Placed Declaration where
  move φ d := { d with pos := φ d.pos, value := move φ d.value }
  move_id _ := by simp

instance : Placed Assignment where
  move φ a := { a with pos := φ a.pos, target := move φ a.target, value := move φ a.value }
  move_id _ := by simp

instance : Placed Update where
  move φ u := { u with pos := φ u.pos, target := move φ u.target }
  move_id _ := by simp

instance : Placed ForInit where
  move φ
    | .declaration d => .declaration (move φ d)
    | .assignment a => .assignment (move φ a)
    | .unsupported kind => .unsupported kind
  move_id i := by cases i <;> simp

instance : Placed ForUpdate where
  move φ
    | .update u => .update (move φ u)
    | .expression e => .expression (move φ e)
    | .unsupported kind => .unsupported kind
  move_id u := by cases u <;> simp

namespace Stmt

/-- A branch. -/
def isBranch : Stmt → Bool
  | .ifElse .. => true
  | _ => false

/-- To prove something of all statements, prove it of each kind of statement, given that
it holds of the parts. -/
@[induction_eliminator]
theorem induct {motive : Stmt → Prop}
    (block : ∀ p body, (∀ stmt ∈ body, motive stmt) → motive (.block p body))
    (declaration : ∀ d, motive (.declaration d))
    (assignment : ∀ a, motive (.assignment a))
    (update : ∀ u, motive (.update u))
    (expression : ∀ p e, motive (.expression p e))
    (call : ∀ p e, motive (.call p e))
    (ifElse : ∀ p test consequent alternate, motive consequent →
      (∀ stmt ∈ alternate, motive stmt) → motive (.ifElse p test consequent alternate))
    (whileLoop : ∀ p test body, motive body → motive (.whileLoop p test body))
    (doWhileLoop : ∀ p body test, motive body → motive (.doWhileLoop p body test))
    (forLoop : ∀ p init test step body, motive body → motive (.forLoop p init test step body))
    (unsupported : ∀ kind, motive (.unsupported kind)) (stmt : Stmt) : motive stmt := by
  refine @Stmt.rec motive (fun stmts => ∀ stmt ∈ stmts, motive stmt)
    (fun alternate => ∀ stmt ∈ alternate, motive stmt) block declaration assignment update
    expression call ifElse whileLoop doWhileLoop forLoop unsupported ?_ ?_ ?_ ?_ stmt
  · intro stmt h
    cases h
  · intro head tail hhead htail stmt h
    rcases List.mem_cons.mp h with rfl | h
    · exact hhead
    · exact htail stmt h
  · intro stmt h
    cases h
  · intro stmt hstmt other h
    obtain rfl := Option.some.inj h
    exact hstmt

mutual

/-- A statement with its positions moved. -/
def move (φ : Pos → Pos) : Stmt → Stmt
  | .block p body => .block (φ p) (moveAll φ body)
  | .declaration d => .declaration (Placed.move φ d)
  | .assignment a => .assignment (Placed.move φ a)
  | .update u => .update (Placed.move φ u)
  | .expression p e => .expression (φ p) (Placed.move φ e)
  | .call p e => .call (φ p) (Placed.move φ e)
  | .ifElse p test consequent alternate =>
    .ifElse (φ p) (Placed.move φ test) (consequent.move φ) (moveOption φ alternate)
  | .whileLoop p test body => .whileLoop (φ p) (Placed.move φ test) (body.move φ)
  | .doWhileLoop p body test => .doWhileLoop (φ p) (body.move φ) (Placed.move φ test)
  | .forLoop p init test step body =>
    .forLoop (φ p) (Placed.move φ init) (Placed.move φ test) (Placed.move φ step) (body.move φ)
  | .unsupported kind => .unsupported kind

/-- Statements with their positions moved. -/
def moveAll (φ : Pos → Pos) : List Stmt → List Stmt
  | [] => []
  | stmt :: stmts => stmt.move φ :: moveAll φ stmts

/-- A statement with its positions moved, if there is one. -/
def moveOption (φ : Pos → Pos) : Option Stmt → Option Stmt
  | none => none
  | some stmt => some (stmt.move φ)

end

mutual

theorem move_id : (stmt : Stmt) → stmt.move id = stmt
  | .block _ body => by simp [move, moveAll_id body]
  | .declaration _ | .assignment _ | .update _ | .expression .. | .call .. => by simp [move]
  | .ifElse _ _ consequent alternate => by
    simp [move, move_id consequent, moveOption_id alternate]
  | .whileLoop _ _ body => by simp [move, move_id body]
  | .doWhileLoop _ body _ => by simp [move, move_id body]
  | .forLoop _ _ _ _ body => by simp [move, move_id body]
  | .unsupported _ => rfl

theorem moveAll_id : (stmts : List Stmt) → moveAll id stmts = stmts
  | [] => rfl
  | stmt :: stmts => by rw [moveAll, move_id stmt, moveAll_id stmts]

theorem moveOption_id : (stmt : Option Stmt) → moveOption id stmt = stmt
  | none => rfl
  | some stmt => by rw [moveOption, move_id stmt]

end

end Stmt

instance : Placed Stmt := ⟨Stmt.move, Stmt.move_id⟩

namespace Stmt

variable (φ : Pos → Pos)

@[simp] theorem moveAll_eq (stmts : List Stmt) : moveAll φ stmts = Pseudocode.move φ stmts := by
  induction stmts with
  | nil => rfl
  | cons stmt stmts ih => rw [moveAll, ih]; rfl

@[simp] theorem isBranch_move (stmt : Stmt) :
    (Pseudocode.move φ stmt).isBranch = stmt.isBranch := by
  cases stmt <;> rfl

end Stmt

instance : Placed Program where
  move φ program := ⟨φ program.pos, move φ program.body⟩
  move_id _ := by simp

end Pseudocode
