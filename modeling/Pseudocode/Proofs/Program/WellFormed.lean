import Pseudocode.Program.Stmt
import Pseudocode.Reader.Lookahead
set_option autoImplicit false

/-!
# Well-formed programs

The trees that reading can build.  Which names and literals occur in them depends on
the tokens, so the predicates take a vocabulary: it says which texts a token of each
kind may have.
-/

namespace Pseudocode

/-- The texts that tokens of each kind may have. -/
def Vocabulary : Type := Kind → String → Prop

namespace Vocabulary

/-- Every token of the list has a text of its kind. -/
def Admits (V : Vocabulary) (ts : List Token) : Prop :=
  ∀ t ∈ ts, V t.kind t.text

/-- The text of a literal: that of a number or a string, or a truth value. -/
def IsLiteral (V : Vocabulary) (raw : String) : Prop :=
  V .number raw ∨ V .string raw ∨ raw = "true" ∨ raw = "false"

/-- The texts that the tokens of a list have. -/
def of (ts : List Token) : Vocabulary := fun kind text =>
  ∃ t ∈ ts, t.kind = kind ∧ t.text = text

theorem admits_of (ts : List Token) : (of ts).Admits ts :=
  fun t ht => ⟨t, ht, rfl, rfl⟩

/-- Every text is admitted. -/
def unrestricted : Vocabulary := fun _ _ => True

theorem admits_unrestricted (ts : List Token) : unrestricted.Admits ts :=
  fun _ _ => trivial

theorem Admits.of_suffix {V : Vocabulary} {ts rest : List Token} (h : V.Admits ts)
    (hrest : rest <:+ ts) : V.Admits rest :=
  fun t ht => h t (hrest.subset ht)

end Vocabulary

/-! ## Operators that tokens spell -/

namespace Token

theorem operator?_eq_some {α : Type} {read : String → Option α} {t : Token} {a : α}
    (h : operator? read t = some a) : t.kind = .operator ∧ read t.text = some a := by
  unfold operator? at h
  split at h
  · exact ⟨‹_›, h⟩
  · cases h

theorem unaryOp?_eq_some {t : Token} {op : UnaryOp} (h : t.unaryOp? = some op) :
    t.kind = .operator ∧ (op = .not ∨ op = .neg) := by
  obtain ⟨hkind, hop⟩ := operator?_eq_some h
  have hmem := List.mem_of_find?_eq_some hop
  exact ⟨hkind, by simpa using hmem⟩

theorem updateOp?_eq_some {t : Token} {op : UpdateOp} (h : t.updateOp? = some op) :
    t.kind = .operator ∧ (op = .increment ∨ op = .decrement) := by
  obtain ⟨hkind, hop⟩ := operator?_eq_some h
  have hmem := List.mem_of_find?_eq_some hop
  exact ⟨hkind, by simpa using hmem⟩

theorem assignOp?_eq_some {t : Token} {op : AssignOp} (h : t.assignOp? = some op) :
    t.kind = .operator ∧ op ∈ AssignOp.all := by
  obtain ⟨hkind, hop⟩ := operator?_eq_some h
  exact ⟨hkind, List.mem_of_find?_eq_some hop⟩

theorem binaryOp?_eq_some {t : Token} {op : BinaryOp} (h : t.binaryOp? = some op) :
    t.kind = .operator ∧ op ∈ BinaryOp.all := by
  obtain ⟨hkind, hop⟩ := operator?_eq_some h
  exact ⟨hkind, List.mem_of_find?_eq_some hop⟩

end Token

/-! ## Expressions -/

namespace Expr

mutual

/-- Operators are those of the subset, only variables and elements are assigned to,
subscripts and sizes are not missing, and no field is called `length`. -/
def WellFormed (V : Vocabulary) : Expr → Prop
  | .name _ n => V .identifier n
  | .literal _ raw => V.IsLiteral raw
  | .index _ base indices => base.WellFormed V ∧ indices ≠ [] ∧ AllWellFormed V indices
  | .call _ n args => V .identifier n ∧ AllWellFormed V args
  | .methodCall _ receiver n args =>
    receiver.WellFormed V ∧ V .identifier n ∧ AllWellFormed V args
  | .property _ receiver n => receiver.WellFormed V ∧ V .identifier n ∧ n ≠ "length"
  | .length _ operand => operand.WellFormed V
  | .newArray _ elementType dims =>
    (V .keyword elementType ∨ V .identifier elementType) ∧ dims ≠ [] ∧ AllWellFormed V dims
  | .arrayLiteral _ elements => AllWellFormed V elements
  | .newObject _ typeName args => V .identifier typeName ∧ AllWellFormed V args
  | .unary _ op operand => (op = .not ∨ op = .neg) ∧ operand.WellFormed V
  | .update _ op operand => (op = .increment ∨ op = .decrement) ∧ operand.WellFormed V
  | .binary _ op l r => op ∈ BinaryOp.all ∧ l.WellFormed V ∧ r.WellFormed V
  | .assign _ target op value =>
    target.isTarget = true ∧ target.WellFormed V ∧ op ∈ AssignOp.all ∧ value.WellFormed V
  | .unsupported .. => False

/-- All of the expressions are well formed. -/
def AllWellFormed (V : Vocabulary) : List Expr → Prop
  | [] => True
  | e :: es => e.WellFormed V ∧ AllWellFormed V es

end

@[simp] theorem allWellFormed_iff {V : Vocabulary} {es : List Expr} :
    AllWellFormed V es ↔ ∀ e ∈ es, e.WellFormed V := by
  induction es with
  | nil => simp [AllWellFormed]
  | cons e es ih => simp [AllWellFormed, ih]

end Expr

/-! ## Statements -/

/-- The name and the value of a declaration are well formed; its type is the text of
a token. -/
def Declaration.WellFormed (V : Vocabulary) (d : Declaration) : Prop :=
  V .identifier d.name ∧ (∃ kind, V kind d.typeName) ∧ ∀ e ∈ d.value, e.WellFormed V

/-- Only variables and elements are assigned to, by an operator of the subset. -/
def Assignment.WellFormed (V : Vocabulary) (a : Assignment) : Prop :=
  a.target.isTarget = true ∧ a.target.WellFormed V ∧ a.op ∈ AssignOp.all ∧ a.value.WellFormed V

/-- Only variables and elements are changed by one. -/
def Update.WellFormed (V : Vocabulary) (u : Update) : Prop :=
  u.target.isTarget = true ∧ u.target.WellFormed V ∧ (u.op = .increment ∨ u.op = .decrement)

/-- A loop starts with a declaration of a built-in type or with an assignment. -/
def ForInit.WellFormed (V : Vocabulary) : ForInit → Prop
  | .declaration d => d.WellFormed V ∧ d.typeName ∈ typeKeywords
  | .assignment a => a.WellFormed V
  | .unsupported _ => False

/-- A loop goes on with a change by one or with an expression. -/
def ForUpdate.WellFormed (V : Vocabulary) : ForUpdate → Prop
  | .update u => u.WellFormed V
  | .expression e => e.WellFormed V
  | .unsupported _ => False

namespace Stmt

mutual

/-- All parts of a statement are well formed. -/
def WellFormed (V : Vocabulary) : Stmt → Prop
  | .block _ body => AllWellFormed V body
  | .declaration d => d.WellFormed V
  | .assignment a => a.WellFormed V
  | .update u => u.WellFormed V
  | .expression _ e => e.WellFormed V
  | .call _ e => e.WellFormed V
  | .ifElse _ test consequent alternate =>
    test.WellFormed V ∧ consequent.WellFormed V ∧ OptionWellFormed V alternate
  | .whileLoop _ test body => test.WellFormed V ∧ body.WellFormed V
  | .doWhileLoop _ body test => body.WellFormed V ∧ test.WellFormed V
  | .forLoop _ init test step body =>
    (∀ i ∈ init, i.WellFormed V) ∧ (∀ e ∈ test, e.WellFormed V) ∧
      (∀ u ∈ step, u.WellFormed V) ∧ body.WellFormed V
  | .unsupported _ => False

/-- All of the statements are well formed. -/
def AllWellFormed (V : Vocabulary) : List Stmt → Prop
  | [] => True
  | stmt :: stmts => stmt.WellFormed V ∧ AllWellFormed V stmts

/-- The statement, if there is one, is well formed. -/
def OptionWellFormed (V : Vocabulary) : Option Stmt → Prop
  | none => True
  | some stmt => stmt.WellFormed V

end

@[simp] theorem allWellFormed_iff {V : Vocabulary} {stmts : List Stmt} :
    AllWellFormed V stmts ↔ ∀ stmt ∈ stmts, stmt.WellFormed V := by
  induction stmts with
  | nil => simp [AllWellFormed]
  | cons stmt stmts ih => simp [AllWellFormed, ih]

@[simp] theorem optionWellFormed_iff {V : Vocabulary} {stmt : Option Stmt} :
    OptionWellFormed V stmt ↔ ∀ s ∈ stmt, s.WellFormed V := by
  cases stmt <;> simp [OptionWellFormed]

end Stmt

/-- All statements of a program are well formed. -/
def Program.WellFormed (V : Vocabulary) (program : Program) : Prop :=
  ∀ stmt ∈ program.body, stmt.WellFormed V

end Pseudocode
