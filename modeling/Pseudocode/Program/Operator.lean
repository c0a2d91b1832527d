import Pseudocode.Token
set_option autoImplicit false

/-!
# Operators (SPEC §3.2)

The operators of the subset, by what they do.  A tree that was not read from a text
may hold operators outside the subset; they are kept by their symbols.
-/

namespace Pseudocode

/-- Operators between two operands. -/
inductive BinaryOp where
  | or
  | and
  | eq
  | ne
  | lt
  | gt
  | le
  | ge
  | add
  | sub
  | mul
  | div
  | rem
  | other (symbol : String)
  deriving DecidableEq, Repr, Inhabited

namespace BinaryOp

/-- The symbol of an operator. -/
def symbol : BinaryOp → String
  | .or => "||"
  | .and => "&&"
  | .eq => "=="
  | .ne => "!="
  | .lt => "<"
  | .gt => ">"
  | .le => "<="
  | .ge => ">="
  | .add => "+"
  | .sub => "-"
  | .mul => "*"
  | .div => "/"
  | .rem => "%"
  | .other s => s

/-- The operators of the subset. -/
def all : List BinaryOp :=
  [.or, .and, .eq, .ne, .lt, .gt, .le, .ge, .add, .sub, .mul, .div, .rem]

/-- The operator of the subset with the given symbol. -/
def ofSymbol? (s : String) : Option BinaryOp :=
  all.find? (·.symbol == s)

/-- The operator with the given symbol, of the subset or not. -/
def ofSymbol (s : String) : BinaryOp :=
  (ofSymbol? s).getD (.other s)

/-- How tightly an operator binds; operators outside the subset bind least. -/
def precedence : BinaryOp → Nat
  | .other _ => 0
  | .or => 1
  | .and => 2
  | .eq => 3
  | .ne => 3
  | .lt => 4
  | .gt => 4
  | .le => 4
  | .ge => 4
  | .add => 5
  | .sub => 5
  | .mul => 6
  | .div => 6
  | .rem => 6

/-- The operators that compare. -/
def isRelational : BinaryOp → Bool
  | .eq | .ne | .lt | .gt | .le | .ge => true
  | _ => false

/-- The operators that join conditions. -/
def isLogical : BinaryOp → Bool
  | .or | .and => true
  | _ => false

/-- The operators that multiply or divide. -/
def isMultiplicative : BinaryOp → Bool
  | .mul | .div | .rem => true
  | _ => false

/-- The comparison that holds just when the given one does not. -/
def inverse? : BinaryOp → Option BinaryOp
  | .lt => some .ge
  | .le => some .gt
  | .gt => some .le
  | .ge => some .lt
  | .eq => some .ne
  | .ne => some .eq
  | _ => none

/-- The comparison as seen from the other operand: `n > i` reads as `i < n`. -/
def swapped : BinaryOp → BinaryOp
  | .lt => .gt
  | .gt => .lt
  | .le => .ge
  | .ge => .le
  | op => op

end BinaryOp

/-- Operators before an operand. -/
inductive UnaryOp where
  | not
  | neg
  | other (symbol : String)
  deriving DecidableEq, Repr, Inhabited

namespace UnaryOp

/-- The symbol of an operator. -/
def symbol : UnaryOp → String
  | .not => "!"
  | .neg => "-"
  | .other s => s

/-- The operator of the subset with the given symbol. -/
def ofSymbol? (s : String) : Option UnaryOp :=
  [UnaryOp.not, .neg].find? (·.symbol == s)

/-- The operator with the given symbol, of the subset or not. -/
def ofSymbol (s : String) : UnaryOp :=
  (ofSymbol? s).getD (.other s)

end UnaryOp

/-- Operators that change a variable by one. -/
inductive UpdateOp where
  | increment
  | decrement
  | other (symbol : String)
  deriving DecidableEq, Repr, Inhabited

namespace UpdateOp

/-- The symbol of an operator. -/
def symbol : UpdateOp → String
  | .increment => "++"
  | .decrement => "--"
  | .other s => s

/-- The operator of the subset with the given symbol. -/
def ofSymbol? (s : String) : Option UpdateOp :=
  [UpdateOp.increment, .decrement].find? (·.symbol == s)

/-- The operator with the given symbol, of the subset or not. -/
def ofSymbol (s : String) : UpdateOp :=
  (ofSymbol? s).getD (.other s)

/-- The sign of the change by one.  Whatever is not an increment takes away. -/
def sign : UpdateOp → String
  | .increment => "+"
  | _ => "-"

end UpdateOp

/-- Operators that assign. -/
inductive AssignOp where
  | set
  | add
  | sub
  | mul
  | div
  | rem
  | other (symbol : String)
  deriving DecidableEq, Repr, Inhabited

namespace AssignOp

/-- The symbol of an operator. -/
def symbol : AssignOp → String
  | .set => "="
  | .add => "+="
  | .sub => "-="
  | .mul => "*="
  | .div => "/="
  | .rem => "%="
  | .other s => s

/-- The operators of the subset. -/
def all : List AssignOp :=
  [.set, .add, .sub, .mul, .div, .rem]

/-- The operator of the subset with the given symbol. -/
def ofSymbol? (s : String) : Option AssignOp :=
  all.find? (·.symbol == s)

/-- The operator with the given symbol, of the subset or not. -/
def ofSymbol (s : String) : AssignOp :=
  (ofSymbol? s).getD (.other s)

/-- The operator that a compound assignment applies before it assigns. -/
def applied? : AssignOp → Option BinaryOp
  | .add => some .add
  | .sub => some .sub
  | .mul => some .mul
  | .div => some .div
  | .rem => some .rem
  | _ => none

end AssignOp

namespace Token

/-- Reads the token as an operator with the help of `read`. -/
def operator? {α : Type} (read : String → Option α) (t : Token) : Option α :=
  if t.kind = .operator then read t.text else none

/-- The operator between two operands that the token is. -/
def binaryOp? : Token → Option BinaryOp := operator? BinaryOp.ofSymbol?

/-- The operator before an operand that the token is. -/
def unaryOp? : Token → Option UnaryOp := operator? UnaryOp.ofSymbol?

/-- The operator changing by one that the token is. -/
def updateOp? : Token → Option UpdateOp := operator? UpdateOp.ofSymbol?

/-- The assigning operator that the token is. -/
def assignOp? : Token → Option AssignOp := operator? AssignOp.ofSymbol?

end Token

end Pseudocode
