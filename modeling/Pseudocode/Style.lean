set_option autoImplicit false

/-!
# Styles of pseudocode (SPEC §3.4)

A style fixes the spelling of the pseudocode: its keywords and operators, how deep
a block is indented, where brackets are put for clarity, and how the methods of
collections are written.
-/

namespace Pseudocode

/-- The spelling of keywords.  A style fills in one family of loops: the structured
one (`whileWord`, `doWord`, `endWhile`, `repeatWord`, `forWord`, `endFor`) or the one
with a single loop word (`loop`, `loopWhile`, `endLoop`); the other stays empty. -/
structure Keywords where
  ifWord : String
  thenWord : String
  elseWord : String
  elseIf : String
  endIf : String
  input : String
  output : String
  untilWord : String
  whileWord : String := ""
  doWord : String := ""
  endWhile : String := ""
  repeatWord : String := ""
  forWord : String := ""
  endFor : String := ""
  loop : String := ""
  loopWhile : String := ""
  endLoop : String := ""
  deriving DecidableEq, Repr, Inhabited

/-- Whether the loops are those with a single loop word. -/
def Keywords.loopFamily (k : Keywords) : Bool :=
  k.loop != ""

/-- How a method call is written.

- `subscriptRead`, `subscriptWrite`: as an element of the receiver.
- `rename`: under another name.
- `remove`: as a removal, by key or by place.
- `length`: as the length of the receiver.
- `function`: as a function of the receiver.
- `passthrough`: as it is.
- `other`: in a way that no style knows. -/
inductive MethodForm where
  | subscriptRead
  | subscriptWrite
  | rename
  | remove
  | length
  | function
  | passthrough
  | other (form : String)
  deriving DecidableEq, Repr, Inhabited

namespace MethodForm

/-- The name of a form. -/
def name : MethodForm → String
  | .subscriptRead => "subscript-read"
  | .subscriptWrite => "subscript-write"
  | .rename => "rename"
  | .remove => "remove"
  | .length => "length"
  | .function => "function"
  | .passthrough => "passthrough"
  | .other form => form

/-- The form of the given name. -/
def ofName (name : String) : MethodForm :=
  let known : List MethodForm :=
    [.subscriptRead, .subscriptWrite, .rename, .remove, .length, .function, .passthrough]
  (known.find? (·.name == name)).getD (.other name)

end MethodForm

/-- How a method call is written, and the new name if there is one. -/
structure MethodRule where
  form : MethodForm
  name : String := ""
  deriving DecidableEq, Repr, Inhabited

/-- The calls that a rule is for: those of a method with so many arguments, or with
any number of them. -/
structure MethodKey where
  method : String
  arity : Option Nat
  deriving DecidableEq, Repr, Inhabited

/-- The order of keys: by method, then by arity, any number first. -/
def MethodKey.le (a b : MethodKey) : Bool :=
  if a.method = b.method then
    match a.arity, b.arity with
    | none, _ => true
    | some _, none => false
    | some m, some n => m ≤ n
  else a.method < b.method

/-- Rules for method calls, one for each key. -/
structure MethodTable where
  entries : List (MethodKey × MethodRule)
  deriving DecidableEq, Repr, Inhabited

namespace MethodTable

/-- No rules. -/
def empty : MethodTable := ⟨[]⟩

/-- Sets the rule for a key. -/
def insert (table : MethodTable) (key : MethodKey) (rule : MethodRule) : MethodTable :=
  ⟨table.entries.filter (·.1 != key) ++ [(key, rule)]⟩

/-- The table of the given rules; of two for the same key the later one counts. -/
def ofList (entries : List (MethodKey × MethodRule)) : MethodTable :=
  entries.foldl (fun table entry => table.insert entry.1 entry.2) empty

/-- The rule for a key. -/
def get? (table : MethodTable) (key : MethodKey) : Option MethodRule :=
  table.entries.lookup key

/-- The rules in the order of their keys. -/
def sorted (table : MethodTable) : List (MethodKey × MethodRule) :=
  table.entries.mergeSort fun a b => a.1.le b.1

end MethodTable

/-- A style. -/
structure Style where
  id : String
  keywords : Keywords
  trueWord : String := "true"
  falseWord : String := "false"
  andWord : String := "and"
  orWord : String := "or"
  notWord : String := "not"
  notEqual : String := "<>"
  modulo : String := "mod"
  /-- The columns that a block is indented by. -/
  indent : Int := 4
  /-- A comparison that is assigned is put in brackets. -/
  wrapRelationalInAssign : Bool := false
  /-- A comparison in a chain of conditions is put in brackets. -/
  wrapRelationalInLogical : Bool := true
  /-- A product in a difference is put in brackets. -/
  wrapMulInSub : Bool := false
  methods : MethodTable := .empty
  deriving DecidableEq, Repr, Inhabited

/-- The rule for a call of a method: the one for the number of its arguments, or
else the one for any number. -/
def Style.methodRule? (style : Style) (method : String) (arity : Nat) : Option MethodRule :=
  (style.methods.get? ⟨method, some arity⟩).or (style.methods.get? ⟨method, none⟩)

end Pseudocode
