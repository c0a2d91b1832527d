import Pseudocode.Render.Shape
import Pseudocode.Render.TypeTable
import Pseudocode.Style
import Pseudocode.Text.Basic
set_option autoImplicit false

/-!
# Expressions as text (SPEC §4.5)

An expression is written from its parts upward.  Brackets come from the place where
it stands, its slot, and from what it is; those of the source are long gone.
-/

namespace Pseudocode

/-- What rendering an expression depends on: the style, and the types of variables. -/
structure Setting where
  style : Style
  types : TypeTable
  deriving DecidableEq, Repr, Inhabited

/-- The place where an expression stands.

- `whole`: on its own or inside brackets.
- `value`: assigned to a variable.
- `item`: printed.
- `prefixed`: behind an operator that stands before its operand.
- `receiver`: before a field, a method or a subscript.
- `left`, `right`: on one side of an operator.
- `link`: in a chain of `&&` or of `||`, with comparisons in brackets or not. -/
inductive Slot where
  | whole
  | value
  | item
  | prefixed
  | receiver
  | left (op : BinaryOp)
  | right (op : BinaryOp)
  | link (op : BinaryOp) (wrapRelational : Bool)
  deriving DecidableEq, Repr, Inhabited

namespace Expr

/-- An assignment. -/
def isAssign : Expr → Bool
  | .assign .. => true
  | _ => false

/-- An operator between operands. -/
def isBinary : Expr → Bool
  | .binary .. => true
  | _ => false

/-- An operator before its operand. -/
def isUnary : Expr → Bool
  | .unary .. => true
  | _ => false

/-- A change by one. -/
def isUpdate : Expr → Bool
  | .update .. => true
  | _ => false

/-- The operator that shows on the outside when the expression is written; a change
by one is written as a sum. -/
def outerOp? : Expr → Option BinaryOp
  | .binary _ op _ _ => some op
  | .update .. => some .add
  | _ => none

/-- A chain of conditions that binds less tightly than `op`. -/
def isLooserChain (op : BinaryOp) : Expr → Bool
  | .binary _ op' _ _ => op'.isLogical && op'.precedence < op.precedence
  | _ => false

end Expr

namespace Style

/-- Whether an operand of `parent` goes into brackets: it binds less tightly, or
equally tightly on the right; or it is a product in a difference, where the style
asks for it; or a remainder in a comparison; or it assigns. -/
def wrapsOperand (style : Style) (parent : BinaryOp) (onLeft : Bool) (e : Expr) : Bool :=
  e.isAssign ||
    match e.outerOp? with
    | none => false
    | some op =>
      (style.wrapMulInSub && parent == .sub && op.isMultiplicative) ||
      (parent.isRelational && op == .rem) ||
      op.precedence < parent.precedence ||
      (op.precedence == parent.precedence && !onLeft)

/-- Whether an expression goes into brackets where it stands. -/
def wraps (style : Style) (slot : Slot) (e : Expr) : Bool :=
  match slot with
  | .whole => false
  | .value => e.isAssign || (style.wrapRelationalInAssign && e.isRelational)
  | .item => e.isBinary || e.isAssign
  | .prefixed => e.isBinary || e.isAssign || e.isUpdate
  | .receiver => e.isBinary || e.isUnary || e.isAssign || e.isUpdate
  | .left op => style.wrapsOperand op true e
  | .right op => style.wrapsOperand op false e
  | .link op wrapRelational =>
    (wrapRelational && e.isRelational) || e.isAssign || e.isLooserChain op

/-- A text in its slot. -/
def place (style : Style) (slot : Slot) (e : Expr) (text : String) : String :=
  if style.wraps slot e then Text.bracketed text else text

/-- The spelling of an operator. -/
def operator (style : Style) : BinaryOp → String
  | .and => style.andWord
  | .or => style.orWord
  | .eq => "="
  | .ne => style.notEqual
  | .rem => style.modulo
  | op => op.symbol

/-- The spelling of a literal. -/
def literal (style : Style) (raw : String) : String :=
  if raw = "true" then style.trueWord
  else if raw = "false" then style.falseWord
  else raw

/-- Whether comparisons in the chain of `op` that `e` is the whole of go into
brackets: always in a chain of `&&`, and in one of `||` if it has two operands. -/
def wrapsComparisons (style : Style) (op : BinaryOp) (e : Expr) : Bool :=
  style.wrapRelationalInLogical && (op == .and || e.chainLength op == 2)

/-- Whether comparisons go into brackets in the chain of `op` at hand: as the chain
around it says, if that is a chain of `op` too. -/
def linkWraps (style : Style) (slot : Slot) (op : BinaryOp) (e : Expr) : Bool :=
  match slot with
  | .link outer w => if outer = op then w else style.wrapsComparisons op e
  | _ => style.wrapsComparisons op e

end Style

namespace Setting

/-- Whether a removal from `receiver` is by key: the declared type of a variable
says so, or else the text of the receiver does. -/
def isKeyed (s : Setting) (receiver : Expr) (text : String) : Bool :=
  match receiver with
  | .name _ n =>
    match s.types.find? n with
    | some typeName => Text.contains "Map" typeName
    | none => Text.containsFolded "map" n
  | _ => Text.containsFolded "map" text

/-- A call of a method as it is. -/
def plainCall (receiver name : String) (args : List String) : String :=
  receiver ++ "." ++ name ++ Text.bracketed (Text.join ", " args)

/-- A call of a method, from the texts of its receiver and arguments. -/
def methodText (s : Setting) (receiver : Expr) (text name : String) (args : List String) :
    Except RenderError String :=
  match s.style.methodRule? name args.length with
  | none => .ok (plainCall text name args)
  | some rule =>
    match rule.form with
    | .passthrough => .ok (plainCall text name args)
    | .subscriptRead =>
      match args with
      | [] => .error .missingArgument
      | key :: _ => .ok (text ++ Text.subscript key)
    | .subscriptWrite =>
      match args with
      | key :: value :: _ => .ok (text ++ Text.subscript key ++ " = " ++ value)
      | _ => .error .missingArgument
    | .rename => .ok (plainCall text rule.name args)
    | .length => .ok ("length" ++ Text.bracketed text)
    | .function => .ok (rule.name ++ Text.bracketed (Text.join ", " (text :: args)))
    | .remove =>
      match args with
      | [key] =>
        if s.isKeyed receiver text then .ok ("remove " ++ text ++ Text.subscript key)
        else .ok (plainCall text "removeItemAt" args)
      | _ => .ok (plainCall text "removeItemAt" args)
    | .other form => .error (.unsupportedForm form)

mutual

/-- The text of an expression in its slot. -/
def render (s : Setting) (slot : Slot) : Expr → Except RenderError String
  | .literal _ raw => .ok (s.style.literal raw)
  | .name _ n => .ok n
  | .index _ base indices => do
    let subscripts ← s.renderAll indices
    let text ← s.render .receiver base
    return text ++ Text.concat (subscripts.map Text.subscript)
  | .call _ n args => do
    let args ← s.renderAll args
    return n ++ Text.bracketed (Text.join ", " args)
  | .methodCall _ receiver n args => do
    let text ← s.render .receiver receiver
    let args ← s.renderAll args
    s.methodText receiver text n args
  | .property _ receiver n => do
    let text ← s.render .receiver receiver
    return text ++ "." ++ n
  | .length _ operand => do
    let text ← s.render .whole operand
    return "length" ++ Text.bracketed text
  | .newArray _ _ dims => do
    let dims ← s.renderAll dims
    return "new array" ++ Text.concat (dims.map Text.subscript)
  | .arrayLiteral _ elements => do
    let elements ← s.renderAll elements
    return Text.subscript (Text.join ", " elements)
  | .newObject _ typeName args => do
    let args ← s.renderAll args
    return "new " ++ typeName ++ Text.bracketed (Text.join ", " args)
  | .unary p op operand => do
    let text ← s.render .prefixed operand
    let written := match op with
      | .not => s.style.notWord ++ " " ++ text
      | op => op.symbol ++ text
    return s.style.place slot (.unary p op operand) written
  | .update p op operand => do
    let text ← s.render .whole operand
    return s.style.place slot (.update p op operand) (text ++ " " ++ op.sign ++ " 1")
  | .binary p op l r => do
    let e : Expr := .binary p op l r
    if op.isLogical then
      let w := s.style.linkWraps slot op e
      let left ← s.render (.link op w) l
      let right ← s.render (.link op w) r
      return s.style.place slot e (left ++ " " ++ s.style.operator op ++ " " ++ right)
    else
      let left ← s.render (.left op) l
      let right ← s.render (.right op) r
      return s.style.place slot e (left ++ " " ++ s.style.operator op ++ " " ++ right)
  | .assign p target op value => do
    let e : Expr := .assign p target op value
    let goal ← s.render .whole target
    if op = .set then
      if value.isInputCall then
        return s.style.place slot e (s.style.keywords.input ++ " " ++ goal)
      else
        let text ← s.render .value value
        return s.style.place slot e (goal ++ " = " ++ text)
    else
      match op.applied? with
      | none => throw (.unknownAssignment op.symbol)
      | some applied =>
        let left ← s.render (.left applied) target
        let right ← s.render (.right applied) value
        return s.style.place slot e
          (goal ++ " = " ++ left ++ " " ++ s.style.operator applied ++ " " ++ right)
  | .unsupported _ kind => throw (.unsupportedExpression kind)

/-- The texts of expressions that stand on their own. -/
def renderAll (s : Setting) : List Expr → Except RenderError (List String)
  | [] => .ok []
  | e :: es => do
    let text ← s.render .whole e
    let texts ← s.renderAll es
    return text :: texts

end

section Equations

variable (s : Setting) (slot : Slot) (p : Pos)

theorem render_index (base : Expr) (indices : List Expr) :
    s.render slot (.index p base indices) = (do
      let subscripts ← s.renderAll indices
      let text ← s.render .receiver base
      return text ++ Text.concat (subscripts.map Text.subscript)) := rfl

theorem render_call (n : String) (args : List Expr) :
    s.render slot (.call p n args) = (do
      let args ← s.renderAll args
      return n ++ Text.bracketed (Text.join ", " args)) := rfl

theorem render_methodCall (receiver : Expr) (n : String) (args : List Expr) :
    s.render slot (.methodCall p receiver n args) = (do
      let text ← s.render .receiver receiver
      let args ← s.renderAll args
      s.methodText receiver text n args) := rfl

theorem render_property (receiver : Expr) (n : String) :
    s.render slot (.property p receiver n) = (do
      let text ← s.render .receiver receiver
      return text ++ "." ++ n) := rfl

theorem render_not (operand : Expr) :
    s.render slot (.unary p .not operand) = (do
      let text ← s.render .prefixed operand
      return s.style.place slot (.unary p .not operand) (s.style.notWord ++ " " ++ text)) := rfl

theorem render_neg (operand : Expr) :
    s.render slot (.unary p .neg operand) = (do
      let text ← s.render .prefixed operand
      return s.style.place slot (.unary p .neg operand) ("-" ++ text)) := rfl

/-- An operator of a chain of conditions. -/
theorem render_logical {op : BinaryOp} (h : op.isLogical = true) (l r : Expr) :
    s.render slot (.binary p op l r) = (do
      let w := s.style.linkWraps slot op (.binary p op l r)
      let left ← s.render (.link op w) l
      let right ← s.render (.link op w) r
      return s.style.place slot (.binary p op l r)
        (left ++ " " ++ s.style.operator op ++ " " ++ right)) :=
  if_pos h

/-- Any other operator between operands. -/
theorem render_binary {op : BinaryOp} (h : op.isLogical = false) (l r : Expr) :
    s.render slot (.binary p op l r) = (do
      let left ← s.render (.left op) l
      let right ← s.render (.right op) r
      return s.style.place slot (.binary p op l r)
        (left ++ " " ++ s.style.operator op ++ " " ++ right)) :=
  if_neg (by simp [h])

theorem renderAll_cons (e : Expr) (es : List Expr) :
    s.renderAll (e :: es) = (do
      let text ← s.render .whole e
      let texts ← s.renderAll es
      return text :: texts) := rfl

end Equations

end Setting

end Pseudocode
