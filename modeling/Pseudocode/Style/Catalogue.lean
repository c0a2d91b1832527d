import Pseudocode.Style
set_option autoImplicit false

/-!
# The catalogue of styles (SPEC §3.4, §9)

Nine styles: one structured in capitals, one structured in small letters, and seven
with a single loop word, of which one writes the methods of collections in the
vocabulary of abstract data types.
-/

namespace Pseudocode.Style

/-- Structured keywords in small letters. -/
def structuredKeywords : Keywords where
  ifWord := "if"
  thenWord := "then"
  elseWord := "else"
  elseIf := "else if"
  endIf := "end if"
  input := "input"
  output := "output"
  untilWord := "until"
  whileWord := "while"
  doWord := "do"
  endWhile := "end while"
  repeatWord := "repeat"
  forWord := "for"
  endFor := "end for"

/-- Structured keywords in capitals. -/
def capitalKeywords : Keywords where
  ifWord := "IF"
  thenWord := "THEN"
  elseWord := "ELSE"
  elseIf := "ELSE IF"
  endIf := "END IF"
  input := "INPUT"
  output := "OUTPUT"
  untilWord := "UNTIL"
  whileWord := "WHILE"
  doWord := "DO"
  endWhile := "END WHILE"
  repeatWord := "REPEAT"
  forWord := "FOR"
  endFor := "END FOR"

/-- Keywords with a single loop word. -/
def loopKeywords : Keywords where
  ifWord := "if"
  thenWord := "then"
  elseWord := "else"
  elseIf := "else if"
  endIf := "end if"
  input := "input"
  output := "output"
  untilWord := "until"
  loop := "loop"
  loopWhile := "loop while"
  endLoop := "end loop"

/-- A removal is written as one in every style. -/
def removal : MethodTable :=
  .ofList [(⟨"remove", none⟩, ⟨.remove, ""⟩)]

/-- The methods of collections, stacks and queues as operations of abstract data
types. -/
def collectionMethods : MethodTable :=
  .ofList
    [(⟨"get", some 1⟩, ⟨.subscriptRead, ""⟩),
      (⟨"set", some 2⟩, ⟨.subscriptWrite, ""⟩),
      (⟨"put", some 2⟩, ⟨.subscriptWrite, ""⟩),
      (⟨"add", some 2⟩, ⟨.rename, "insertItemAt"⟩),
      (⟨"add", none⟩, ⟨.rename, "addItem"⟩),
      (⟨"addAt", none⟩, ⟨.rename, "insertItemAt"⟩),
      (⟨"containsKey", some 1⟩, ⟨.function, "containsKey"⟩),
      (⟨"size", some 0⟩, ⟨.length, ""⟩),
      (⟨"remove", none⟩, ⟨.remove, ""⟩),
      (⟨"push", some 1⟩, ⟨.passthrough, ""⟩),
      (⟨"pop", some 0⟩, ⟨.passthrough, ""⟩),
      (⟨"enqueue", some 1⟩, ⟨.passthrough, ""⟩),
      (⟨"dequeue", some 0⟩, ⟨.passthrough, ""⟩),
      (⟨"isEmpty", some 0⟩, ⟨.passthrough, ""⟩),
      (⟨"hasNext", some 0⟩, ⟨.passthrough, ""⟩),
      (⟨"getNext", some 0⟩, ⟨.passthrough, ""⟩),
      (⟨"resetNext", some 0⟩, ⟨.passthrough, ""⟩)]

/-- A structured style in capitals. -/
def capital (id : String) : Style where
  id := id
  keywords := capitalKeywords
  trueWord := "TRUE"
  falseWord := "FALSE"
  andWord := "AND"
  orWord := "OR"
  notWord := "NOT"
  notEqual := "!="
  modulo := "%"
  indent := 2
  wrapRelationalInAssign := true
  methods := removal

/-- A structured style in small letters. -/
def structured (id : String) : Style where
  id := id
  keywords := structuredKeywords
  methods := removal

/-- A style with a single loop word. -/
def looping (id : String) (wrapMulInSub : Bool) (methods : MethodTable) : Style where
  id := id
  keywords := loopKeywords
  wrapMulInSub := wrapMulInSub
  methods := methods

/-- All styles, in the order of their names. -/
def catalogue : List Style :=
  [capital "sc-01",
    structured "sc-02",
    looping "sc-03" false removal,
    looping "sc-04" true removal,
    looping "sc-05" true removal,
    looping "sc-06" false collectionMethods,
    looping "sc-07" false removal,
    looping "sc-08" true removal,
    looping "sc-09" false removal]

/-- The names of all styles. -/
def ids : List String :=
  catalogue.map (·.id)

/-- The name of the style that is taken when none is asked for. -/
def defaultId : String := "sc-02"

/-- The style of the given name. -/
def find? (id : String) : Option Style :=
  catalogue.find? (·.id == id)

/-- A name that no style has. -/
structure Unknown where
  id : String
  deriving DecidableEq, Repr, Inhabited

/-- The wording of the failure to find a style. -/
def Unknown.message (u : Unknown) : String :=
  "Unknown style '" ++ u.id ++ "'"

/-- The style that is asked for, or the default one. -/
def select (id : Option String) : Except Unknown Style :=
  match find? (id.getD defaultId) with
  | some style => .ok style
  | none => .error ⟨id.getD defaultId⟩

end Pseudocode.Style
