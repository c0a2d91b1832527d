import Pseudocode.Proofs.Program.WellFormed
set_option autoImplicit false

/-!
# Programs with a gap

An expression, a statement or a program with a gap is a place where an expression can stand:
filling the gap with an expression gives back a whole.  Two programs that differ in one
expression only are the same program with a gap, filled in two ways.
-/

namespace Pseudocode

/-! ## Expressions -/

namespace Expr

/-- What a list of expressions belongs to. -/
inductive Listing where
  | index (pos : Pos) (base : Expr)
  | call (pos : Pos) (name : String)
  | methodCall (pos : Pos) (receiver : Expr) (name : String)
  | newArray (pos : Pos) (elementType : String)
  | arrayLiteral (pos : Pos)
  | newObject (pos : Pos) (typeName : String)
  deriving Repr, Inhabited

/-- The expression with the given list. -/
def Listing.of : Listing → List Expr → Expr
  | .index p base, es => .index p base es
  | .call p n, es => .call p n es
  | .methodCall p receiver n, es => .methodCall p receiver n es
  | .newArray p elementType, es => .newArray p elementType es
  | .arrayLiteral p, es => .arrayLiteral p es
  | .newObject p typeName, es => .newObject p typeName es

/-- An expression with a gap.

- `here`: nothing but the gap.
- `item`: in a list, behind some expressions and before others.
- `base`, `receiver`, `field`, `length`: before subscripts, a method, a field or the length.
- `operand`, `changed`: behind an operator, or changed by one.
- `left`, `right`: on one side of an operator.
- `target`, `value`: in what is assigned to, or in what is assigned. -/
inductive Gap where
  | here
  | item (listing : Listing) (before : List Expr) (gap : Gap) (behind : List Expr)
  | base (pos : Pos) (gap : Gap) (indices : List Expr)
  | receiver (pos : Pos) (gap : Gap) (name : String) (args : List Expr)
  | field (pos : Pos) (gap : Gap) (name : String)
  | length (pos : Pos) (gap : Gap)
  | operand (pos : Pos) (op : UnaryOp) (gap : Gap)
  | changed (pos : Pos) (op : UpdateOp) (gap : Gap)
  | left (pos : Pos) (op : BinaryOp) (gap : Gap) (right : Expr)
  | right (pos : Pos) (op : BinaryOp) (left : Expr) (gap : Gap)
  | target (pos : Pos) (gap : Gap) (op : AssignOp) (value : Expr)
  | value (pos : Pos) (target : Expr) (op : AssignOp) (gap : Gap)
  deriving Repr, Inhabited

/-- The expression in which `e` stands in the gap. -/
def Gap.fill (e : Expr) : Gap → Expr
  | .here => e
  | .item listing before gap behind => listing.of (before ++ gap.fill e :: behind)
  | .base p gap indices => .index p (gap.fill e) indices
  | .receiver p gap n args => .methodCall p (gap.fill e) n args
  | .field p gap n => .property p (gap.fill e) n
  | .length p gap => .length p (gap.fill e)
  | .operand p op gap => .unary p op (gap.fill e)
  | .changed p op gap => .update p op (gap.fill e)
  | .left p op gap r => .binary p op (gap.fill e) r
  | .right p op l gap => .binary p op l (gap.fill e)
  | .target p gap op v => .assign p (gap.fill e) op v
  | .value p t op gap => .assign p t op (gap.fill e)

theorem Listing.wellFormed_of_mem {V : Vocabulary} {listing : Listing} {es : List Expr}
    (h : (listing.of es).WellFormed V) : ∀ e ∈ es, e.WellFormed V := by
  cases listing with
  | index | newArray | methodCall => exact allWellFormed_iff.mp h.2.2
  | call | newObject => exact allWellFormed_iff.mp h.2
  | arrayLiteral => exact allWellFormed_iff.mp h

namespace Gap

variable {V : Vocabulary} {e e' : Expr} {gap : Gap}

theorem wellFormed_of_fill (h : (gap.fill e).WellFormed V) : e.WellFormed V := by
  induction gap with
  | here => exact h
  | item listing before gap behind ih =>
    exact ih (Listing.wellFormed_of_mem h _ (by simp))
  | base p gap indices ih => exact ih h.1
  | receiver p gap n args ih => exact ih h.1
  | field p gap n ih => exact ih h.1
  | length p gap ih => exact ih h
  | operand p op gap ih => exact ih h.2
  | changed p op gap ih => exact ih h.2
  | left p op gap r ih => exact ih h.2.1
  | right p op l gap ih => exact ih h.2.2
  | target p gap op v ih => exact ih h.2.1
  | value p t op gap ih => exact ih h.2.2.2

/-- What cannot be assigned to is not the whole of what is. -/
theorem isTarget_fill (he : e.isTarget = false) (h : (gap.fill e).isTarget = true) :
    (gap.fill e').isTarget = true := by
  cases gap with
  | here => rw [fill, he] at h; cases h
  | item listing before gap behind => cases listing <;> exact h
  | _ => exact h

theorem fill_wellFormed (he : e.isTarget = false) (he' : e'.WellFormed V) :
    ∀ {gap : Gap}, (gap.fill e).WellFormed V → (gap.fill e').WellFormed V := by
  intro gap h
  induction gap with
  | here => exact he'
  | item listing before gap behind ih =>
    have hitems : AllWellFormed V (before ++ gap.fill e :: behind) →
        AllWellFormed V (before ++ gap.fill e' :: behind) := by
      simp only [allWellFormed_iff, List.mem_append, List.mem_cons]
      rintro hitems item (hitem | rfl | hitem)
      · exact hitems item (.inl hitem)
      · exact ih (hitems _ (.inr (.inl rfl)))
      · exact hitems item (.inr (.inr hitem))
    cases listing with
    | index | newArray => exact ⟨h.1, by simp, hitems h.2.2⟩
    | call | newObject => exact ⟨h.1, hitems h.2⟩
    | methodCall => exact ⟨h.1, h.2.1, hitems h.2.2⟩
    | arrayLiteral => exact hitems h
  | base p gap indices ih => exact ⟨ih h.1, h.2⟩
  | receiver p gap n args ih => exact ⟨ih h.1, h.2⟩
  | field p gap n ih => exact ⟨ih h.1, h.2⟩
  | length p gap ih => exact ih h
  | operand p op gap ih => exact ⟨h.1, ih h.2⟩
  | changed p op gap ih => exact ⟨h.1, ih h.2⟩
  | left p op gap r ih => exact ⟨h.1, ih h.2.1, h.2.2⟩
  | right p op l gap ih => exact ⟨h.1, h.2.1, ih h.2.2⟩
  | target p gap op v ih => exact ⟨isTarget_fill he h.1, ih h.2.1, h.2.2⟩
  | value p t op gap ih => exact ⟨h.1, h.2.1, h.2.2.1, ih h.2.2.2⟩

end Gap

end Expr

/-! ## Statements and programs -/

/-- The first step of a counting loop with a gap. -/
inductive ForInit.Gap where
  | declaration (d : Declaration) (gap : Expr.Gap)
  | target (a : Assignment) (gap : Expr.Gap)
  | value (a : Assignment) (gap : Expr.Gap)
  deriving Repr, Inhabited

/-- The first step in which `e` stands in the gap. -/
def ForInit.Gap.fill (e : Expr) : ForInit.Gap → ForInit
  | .declaration d gap => .declaration { d with value := some (gap.fill e) }
  | .target a gap => .assignment { a with target := gap.fill e }
  | .value a gap => .assignment { a with value := gap.fill e }

/-- The update of a counting loop with a gap. -/
inductive ForUpdate.Gap where
  | update (u : Update) (gap : Expr.Gap)
  | expression (gap : Expr.Gap)
  deriving Repr, Inhabited

/-- The update in which `e` stands in the gap. -/
def ForUpdate.Gap.fill (e : Expr) : ForUpdate.Gap → ForUpdate
  | .update u gap => .update { u with target := gap.fill e }
  | .expression gap => .expression (gap.fill e)

/-- What a counting loop does besides its body. -/
structure Header where
  init : Option ForInit
  test : Option Expr
  update : Option ForUpdate
  deriving Repr, Inhabited

/-- All parts of a header are well formed. -/
structure Header.WellFormed (V : Vocabulary) (header : Header) : Prop where
  init : ∀ i ∈ header.init, i.WellFormed V
  test : ∀ e ∈ header.test, e.WellFormed V
  update : ∀ u ∈ header.update, u.WellFormed V

/-- The header of a counting loop with a gap. -/
inductive Header.Gap where
  | init (gap : ForInit.Gap) (test : Option Expr) (update : Option ForUpdate)
  | test (init : Option ForInit) (gap : Expr.Gap) (update : Option ForUpdate)
  | update (init : Option ForInit) (test : Option Expr) (gap : ForUpdate.Gap)
  deriving Repr, Inhabited

/-- The header in which `e` stands in the gap. -/
def Header.Gap.fill (e : Expr) : Header.Gap → Header
  | .init gap c step => ⟨some (gap.fill e), c, step⟩
  | .test start gap step => ⟨start, some (gap.fill e), step⟩
  | .update start c gap => ⟨start, c, some (gap.fill e)⟩

namespace Stmt

/-- A statement with a gap.  It is in an expression of the statement itself, or in one of the
statements inside. -/
inductive Gap where
  | block (pos : Pos) (before : List Stmt) (gap : Gap) (behind : List Stmt)
  | declaration (d : Declaration) (gap : Expr.Gap)
  | target (a : Assignment) (gap : Expr.Gap)
  | value (a : Assignment) (gap : Expr.Gap)
  | update (u : Update) (gap : Expr.Gap)
  | expression (pos : Pos) (gap : Expr.Gap)
  | call (pos : Pos) (gap : Expr.Gap)
  | test (pos : Pos) (gap : Expr.Gap) (consequent : Stmt) (alternate : Option Stmt)
  | consequent (pos : Pos) (test : Expr) (gap : Gap) (alternate : Option Stmt)
  | alternate (pos : Pos) (test : Expr) (consequent : Stmt) (gap : Gap)
  | whileTest (pos : Pos) (gap : Expr.Gap) (body : Stmt)
  | whileBody (pos : Pos) (test : Expr) (gap : Gap)
  | doBody (pos : Pos) (gap : Gap) (test : Expr)
  | doTest (pos : Pos) (body : Stmt) (gap : Expr.Gap)
  | header (pos : Pos) (gap : Header.Gap) (body : Stmt)
  | forBody (pos : Pos) (header : Header) (gap : Gap)
  deriving Repr, Inhabited

/-- The statement in which `e` stands in the gap. -/
def Gap.fill (e : Expr) : Gap → Stmt
  | .block p before gap behind => .block p (before ++ gap.fill e :: behind)
  | .declaration d gap => .declaration { d with value := some (gap.fill e) }
  | .target a gap => .assignment { a with target := gap.fill e }
  | .value a gap => .assignment { a with value := gap.fill e }
  | .update u gap => .update { u with target := gap.fill e }
  | .expression p gap => .expression p (gap.fill e)
  | .call p gap => .call p (gap.fill e)
  | .test p gap yes no => .ifElse p (gap.fill e) yes no
  | .consequent p c gap no => .ifElse p c (gap.fill e) no
  | .alternate p c yes gap => .ifElse p c yes (some (gap.fill e))
  | .whileTest p gap body => .whileLoop p (gap.fill e) body
  | .whileBody p c gap => .whileLoop p c (gap.fill e)
  | .doBody p gap c => .doWhileLoop p (gap.fill e) c
  | .doTest p body gap => .doWhileLoop p body (gap.fill e)
  | .header p gap body => .forLoop p (gap.fill e).init (gap.fill e).test (gap.fill e).update body
  | .forBody p head gap => .forLoop p head.init head.test head.update (gap.fill e)

end Stmt

/-- A program with a gap. -/
structure Program.Gap where
  pos : Pos
  before : List Stmt
  gap : Stmt.Gap
  behind : List Stmt
  deriving Repr, Inhabited

/-- The program in which `e` stands in the gap. -/
def Program.Gap.fill (e : Expr) (gap : Program.Gap) : Program :=
  ⟨gap.pos, gap.before ++ gap.gap.fill e :: gap.behind⟩

end Pseudocode
