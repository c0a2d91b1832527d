import Pseudocode.Proofs.Reader.Phrases
import Pseudocode.Render.Expr
set_option autoImplicit false

/-!
# Programs as source texts

A program is written in the syntax that it is read from: braces stand round every body, a
change by one has its operator behind, the dimensions of a declaration stand behind its
type and the elements of an array behind `new int[]`.  Brackets stand round every operand,
base, receiver and argument that is not a name or a literal.

A literal before a field, a method, a subscript or a change by one is a special case, since
nothing is read behind a literal: `literals` says whether it stands there as it is.
-/

namespace Pseudocode

namespace Token

/-- Tokens that stand as they are, or in round brackets. -/
def enclosed (bare : Bool) (ts : List Token) : List Token :=
  if bare then ts else Pattern.openParen.token :: ts ++ [Pattern.closeParen.token]

/-- The token of a type. -/
def type (name : String) : Token :=
  .bare (if name ∈ typeKeywords then .keyword else .identifier) name

end Token

/-! ## Expressions -/

namespace Expr

/-- A name. -/
def isName : Expr → Bool
  | .name .. => true
  | _ => false

/-- A name, or a literal where `literals` allows it, needs no brackets. -/
def standsBare (literals : Bool) : Expr → Bool
  | .name .. => true
  | .literal .. => literals
  | _ => false

mutual

/-- The tokens of an expression. -/
def written (literals : Bool) : Expr → List Token
  | .name _ n => [.word n]
  | .literal _ raw => [.literal raw]
  | .index _ base indices =>
    Token.enclosed (base.standsBare literals) (base.written literals) ++
      Reading.bracketed (fun ts => ts) (writtenAll literals indices)
  | .call _ n args =>
    .word n :: Pattern.openParen.token ::
      Reading.separated (fun ts => ts) (writtenArgs literals args) ++ [Pattern.closeParen.token]
  | .methodCall _ receiver n args =>
    Token.enclosed (receiver.standsBare literals) (receiver.written literals) ++
      Pattern.dot.token :: .word n :: Pattern.openParen.token ::
      Reading.separated (fun ts => ts) (writtenArgs literals args) ++ [Pattern.closeParen.token]
  | .property _ receiver n =>
    Token.enclosed (receiver.standsBare literals) (receiver.written literals) ++
      [Pattern.dot.token, .word n]
  | .length _ operand =>
    Token.enclosed (operand.standsBare literals) (operand.written literals) ++
      [Pattern.dot.token, .word "length"]
  | .newArray _ elementType dims =>
    Reading.newWord :: .type elementType ::
      Reading.bracketed (fun ts => ts) (writtenAll literals dims)
  | .arrayLiteral _ elements =>
    Reading.newWord :: .type "int" :: Pattern.openBracket.token :: Pattern.closeBracket.token ::
      Pattern.openBrace.token ::
      Reading.separated (fun ts => ts) (writtenAll literals elements) ++ [Pattern.closeBrace.token]
  | .newObject _ typeName args =>
    Reading.newWord :: .word typeName :: Pattern.openParen.token ::
      Reading.separated (fun ts => ts) (writtenArgs literals args) ++ [Pattern.closeParen.token]
  | .unary _ op operand =>
    .symbol op.symbol :: Token.enclosed (operand.standsBare true) (operand.written literals)
  | .update _ op operand =>
    Token.enclosed (operand.standsBare literals) (operand.written literals) ++
      [.symbol op.symbol]
  | .binary _ op l r =>
    Token.enclosed (l.standsBare true) (l.written literals) ++ .symbol op.symbol ::
      Token.enclosed (r.standsBare true) (r.written literals)
  | .assign _ target op value =>
    target.written literals ++ .symbol op.symbol :: value.written literals
  | .unsupported .. => []

/-- The tokens of each of the expressions. -/
def writtenAll (literals : Bool) : List Expr → List (List Token)
  | [] => []
  | e :: es => e.written literals :: writtenAll literals es

/-- The tokens of each of the expressions as an argument. -/
def writtenArgs (literals : Bool) : List Expr → List (List Token)
  | [] => []
  | e :: es =>
    Token.enclosed (e.standsBare true) (e.written literals) :: writtenArgs literals es

end

variable {literals : Bool}

/-- The tokens of an operand or argument. -/
def operand (literals : Bool) (e : Expr) : List Token :=
  Token.enclosed (e.standsBare true) (e.written literals)

/-- The tokens of what stands before a field, a method, a subscript or a change by one. -/
def base (literals : Bool) (e : Expr) : List Token :=
  Token.enclosed (e.standsBare literals) (e.written literals)

theorem writtenAll_eq (es : List Expr) :
    writtenAll literals es = es.map (written literals) := by
  induction es with
  | nil => rfl
  | cons e es ih => rw [List.map_cons, ← ih]; rfl

theorem writtenArgs_eq (es : List Expr) :
    writtenArgs literals es = es.map (operand literals) := by
  induction es with
  | nil => rfl
  | cons e es ih => rw [List.map_cons, ← ih]; rfl

section Equations

variable (p : Pos)

theorem written_index (array : Expr) (indices : List Expr) :
    (Expr.index p array indices).written literals =
      array.base literals ++ Reading.bracketed (written literals) indices := by
  rw [← Reading.bracketed_map (f := fun ts => ts), ← writtenAll_eq]
  rfl

theorem written_call (n : String) (args : List Expr) :
    (Expr.call p n args).written literals =
      .word n :: Pattern.openParen.token :: Reading.separated (operand literals) args ++
        [Pattern.closeParen.token] := by
  rw [← Reading.separated_map (f := fun ts => ts), ← writtenArgs_eq]
  rfl

theorem written_methodCall (receiver : Expr) (n : String) (args : List Expr) :
    (Expr.methodCall p receiver n args).written literals =
      receiver.base literals ++ Pattern.dot.token :: .word n :: Pattern.openParen.token ::
        Reading.separated (operand literals) args ++ [Pattern.closeParen.token] := by
  rw [← Reading.separated_map (f := fun ts => ts), ← writtenArgs_eq]
  rfl

theorem written_newArray (elementType : String) (dims : List Expr) :
    (Expr.newArray p elementType dims).written literals =
      Reading.newWord :: .type elementType :: Reading.bracketed (written literals) dims := by
  rw [← Reading.bracketed_map (f := fun ts => ts), ← writtenAll_eq]
  rfl

theorem written_arrayLiteral (elements : List Expr) :
    (Expr.arrayLiteral p elements).written literals =
      Reading.newWord :: .type "int" :: Pattern.openBracket.token :: Pattern.closeBracket.token ::
        Pattern.openBrace.token :: Reading.separated (written literals) elements ++
        [Pattern.closeBrace.token] := by
  rw [← Reading.separated_map (f := fun ts => ts), ← writtenAll_eq]
  rfl

theorem written_newObject (typeName : String) (args : List Expr) :
    (Expr.newObject p typeName args).written literals =
      Reading.newWord :: .word typeName :: Pattern.openParen.token ::
        Reading.separated (operand literals) args ++ [Pattern.closeParen.token] := by
  rw [← Reading.separated_map (f := fun ts => ts), ← writtenArgs_eq]
  rfl

end Equations

/-- The tokens of a chain of fields, methods and subscripts on a name, without brackets
round its links. -/
def chain (literals : Bool) : Expr → List Token
  | .property _ receiver n => receiver.chain literals ++ [Pattern.dot.token, .word n]
  | .methodCall _ receiver n args =>
    receiver.chain literals ++ Pattern.dot.token :: .word n :: Pattern.openParen.token ::
      Reading.separated (operand literals) args ++ [Pattern.closeParen.token]
  | .length _ receiver => receiver.chain literals ++ [Pattern.dot.token, .word "length"]
  | .index _ array indices =>
    array.chain literals ++ Reading.bracketed (written literals) indices
  | e => e.written literals

/-- A chain on a name that starts with a field or a method. -/
def isDotted : Expr → Bool
  | .property _ receiver _ => receiver.isName || receiver.isDotted
  | .methodCall _ receiver _ _ => receiver.isName || receiver.isDotted
  | .length _ receiver => receiver.isName || receiver.isDotted
  | .index _ array _ => array.isDotted && !array.isIndex
  | _ => false

end Expr

/-! ## Statements -/

/-- The value of a declaration behind its sign. -/
def Declaration.writtenValue (literals : Bool) (d : Declaration) : List Token :=
  d.value.elim [] fun e => .symbol "=" :: e.written literals

/-- The tokens of a declaration. -/
def Declaration.written (literals : Bool) (d : Declaration) : List Token :=
  .type d.typeName :: (Reading.pairs d.dims ++ .word d.name ::
    (d.writtenValue literals ++ [Pattern.semicolon.token]))

/-- The tokens of an assignment. -/
def Assignment.written (literals : Bool) (a : Assignment) : List Token :=
  a.target.written literals ++ .symbol a.op.symbol ::
    (a.value.written literals ++ [Pattern.semicolon.token])

/-- The tokens of a change by one in front of `close`. -/
def Update.written (literals : Bool) (close : Pattern) (u : Update) : List Token :=
  u.target.written literals ++ [.symbol u.op.symbol, close.token]

/-- The tokens of what a counting loop does first, with a semicolon. -/
def ForInit.written (literals : Bool) : ForInit → List Token
  | .declaration d => d.written literals
  | .assignment a => a.written literals
  | .unsupported _ => []

/-- The tokens of what a counting loop does after each round, with a closing bracket. -/
def ForUpdate.written (literals : Bool) : ForUpdate → List Token
  | .update u => u.written literals .closeParen
  | .expression e => e.written literals ++ [Pattern.closeParen.token]
  | .unsupported _ => []

/-- The tokens of the head of a counting loop, from behind its opening bracket to the
closing one. -/
def forHead (literals : Bool) (init : Option ForInit) (test : Option Expr)
    (step : Option ForUpdate) : List Token :=
  init.elim [Pattern.semicolon.token] (ForInit.written literals) ++
    (test.elim [Pattern.semicolon.token]
        (fun e => e.written literals ++ [Pattern.semicolon.token]) ++
      step.elim [Pattern.closeParen.token] (ForUpdate.written literals))

namespace Stmt

mutual

/-- The tokens of a statement. -/
def written (literals : Bool) : Stmt → List Token
  | .block _ body =>
    Pattern.openBrace.token :: (writtenAll literals body ++ [Pattern.closeBrace.token])
  | .declaration d => d.written literals
  | .assignment a => a.written literals
  | .update u => u.written literals .semicolon
  | .expression _ e => e.written literals ++ [Pattern.semicolon.token]
  | .call _ e => e.chain literals ++ [Pattern.semicolon.token]
  | .ifElse _ test consequent alternate =>
    (Pattern.keyword "if").token :: (Reading.bracket (test.written literals) ++
      (consequent.written literals ++ writtenElse literals alternate))
  | .whileLoop _ test body =>
    (Pattern.keyword "while").token ::
      (Reading.bracket (test.written literals) ++ body.written literals)
  | .doWhileLoop _ body test =>
    (Pattern.keyword "do").token :: (body.written literals ++ (Pattern.keyword "while").token ::
      (Reading.bracket (test.written literals) ++ [Pattern.semicolon.token]))
  | .forLoop _ init test step body =>
    (Pattern.keyword "for").token :: Pattern.openParen.token ::
      (forHead literals init test step ++ body.written literals)
  | .unsupported _ => []

/-- The tokens of statements one after the other. -/
def writtenAll (literals : Bool) : List Stmt → List Token
  | [] => []
  | stmt :: stmts => stmt.written literals ++ writtenAll literals stmts

/-- The tokens of what stands behind a branch. -/
def writtenElse (literals : Bool) : Option Stmt → List Token
  | none => []
  | some stmt => (Pattern.keyword "else").token :: stmt.written literals

end

theorem writtenAll_eq {literals : Bool} (stmts : List Stmt) :
    writtenAll literals stmts = stmts.flatMap (written literals) := by
  induction stmts with
  | nil => rfl
  | cons stmt stmts ih => rw [List.flatMap_cons, ← ih]; rfl

end Stmt

/-- The tokens of a program. -/
def Program.written (literals : Bool) (program : Program) : List Token :=
  Stmt.writtenAll literals program.body

/-- Tokens as a text, with a blank behind each of them. -/
def Token.spaced (ts : List Token) : String :=
  Text.concat (ts.map fun t => t.text ++ " ")

/-- A program as a source text. -/
def Program.sourceText (literals : Bool) (program : Program) : String :=
  Token.spaced (program.written literals)

/-! ## The programs that are written -/

/-- The names of a source are words that are neither reserved nor modifiers; keywords
stand only for types. -/
def Vocabulary.source : Vocabulary
  | .identifier, n => Token.isLexeme .identifier n = true ∧ n ∉ modifiers
  | .keyword, word => word ∈ typeKeywords
  | kind, text => Token.isLexeme kind text = true

/-- A name, or a name with subscripts. -/
def Expr.isPlainTarget : Expr → Bool
  | .name .. => true
  | .index _ array _ => array.isName
  | _ => false

/-- The type is built in or a name. -/
def Declaration.IsSource (d : Declaration) : Prop :=
  (d.typeName ∈ typeKeywords ∨ Vocabulary.source .identifier d.typeName) ∧
    Vocabulary.source .identifier d.name ∧ ∀ e ∈ d.value, e.WellFormed .source

/-- Something is assigned to a name or to an element of an array with a name. -/
def Assignment.IsSource (a : Assignment) : Prop :=
  a.target.isPlainTarget = true ∧ a.target.WellFormed .source ∧ a.op ∈ AssignOp.all ∧
    a.value.WellFormed .source

/-- A name or an element of an array with a name is changed by one. -/
def Update.IsSource (u : Update) : Prop :=
  u.target.isPlainTarget = true ∧ u.target.WellFormed .source ∧
    (u.op = .increment ∨ u.op = .decrement)

/-- A loop starts with a declaration of a built-in type or with an assignment. -/
def ForInit.IsSource : ForInit → Prop
  | .declaration d => d.IsSource ∧ d.typeName ∈ typeKeywords
  | .assignment a => a.IsSource
  | .unsupported _ => False

/-- A loop goes on with a change by one or with an assignment. -/
def ForUpdate.IsSource : ForUpdate → Prop
  | .update u => u.IsSource
  | .expression e => e.isAssign = true ∧ e.WellFormed .source
  | .unsupported _ => False

namespace Stmt

/-- A block. -/
def isBlock : Stmt → Bool
  | .block .. => true
  | _ => false

mutual

/-- The body of every branch and loop is a block; only another branch may stand behind
`else` as it is.  A call as a statement is that of a function, or a chain on a name that
starts with a point and ends with a method. -/
def IsSource : Stmt → Prop
  | .block _ body => AllSource body
  | .declaration d => d.IsSource
  | .assignment a => a.IsSource
  | .update u => u.IsSource
  | .expression _ e => (∃ p n args, e = .call p n args) ∧ e.WellFormed .source
  | .call _ e =>
    (∃ p receiver n args, e = .methodCall p receiver n args) ∧ e.isDotted = true ∧
      e.WellFormed .source
  | .ifElse _ test consequent alternate =>
    test.WellFormed .source ∧ consequent.isBlock = true ∧ consequent.IsSource ∧
      ElseSource alternate
  | .whileLoop _ test body =>
    test.WellFormed .source ∧ body.isBlock = true ∧ body.IsSource
  | .doWhileLoop _ body test =>
    test.WellFormed .source ∧ body.isBlock = true ∧ body.IsSource
  | .forLoop _ init test step body =>
    (∀ i ∈ init, i.IsSource) ∧ (∀ e ∈ test, e.WellFormed .source) ∧ (∀ u ∈ step, u.IsSource) ∧
      body.isBlock = true ∧ body.IsSource
  | .unsupported _ => False

/-- All of the statements are those of a source. -/
def AllSource : List Stmt → Prop
  | [] => True
  | stmt :: stmts => stmt.IsSource ∧ AllSource stmts

/-- Behind `else` there is a block or another branch. -/
def ElseSource : Option Stmt → Prop
  | none => True
  | some stmt => (stmt.isBlock = true ∨ stmt.isBranch = true) ∧ stmt.IsSource

end

theorem allSource_iff {stmts : List Stmt} :
    AllSource stmts ↔ ∀ stmt ∈ stmts, stmt.IsSource := by
  induction stmts with
  | nil => simp [AllSource]
  | cons stmt stmts ih => simp [AllSource, ih]

end Stmt

/-- All statements of a program are those of a source. -/
def Program.IsSource (program : Program) : Prop :=
  ∀ stmt ∈ program.body, stmt.IsSource

end Pseudocode
