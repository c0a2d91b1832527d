import Pseudocode.Json
set_option autoImplicit false

/-!
# Diagnostics and reports (SPEC §3.3)

A conversion either yields pseudocode or is stopped by a failure, which names the
stage it belongs to and the place in the source.
-/

namespace Pseudocode

/-- The stages at which a source can fail. -/
inductive Stage where
  | input
  | scope
  | tokenization
  | parse
  deriving DecidableEq, Repr, Inhabited

namespace Stage

/-- The name of a stage. -/
def name : Stage → String
  | .input => "input"
  | .scope => "scope"
  | .tokenization => "tokenization"
  | .parse => "parse"

/-- Every stage. -/
def all : List Stage :=
  [.input, .scope, .tokenization, .parse]

/-- A name that no stage has. -/
structure Unknown where
  name : String
  deriving DecidableEq, Repr, Inhabited

/-- The wording of the failure to find a stage. -/
def Unknown.message (u : Unknown) : String :=
  "unknown stage: " ++ u.name

/-- The stage of the given name. -/
def ofName (name : String) : Except Unknown Stage :=
  match all.find? (·.name == name) with
  | some stage => .ok stage
  | none => .error ⟨name⟩

end Stage

/-- A failure of a source: the stage, what is wrong, and where. -/
structure Diagnostic where
  stage : Stage
  message : String
  line : Int := 1
  column : Int := 1
  deriving DecidableEq, Repr, Inhabited

namespace Diagnostic

/-- A diagnostic on one line. -/
def text (d : Diagnostic) : String :=
  d.stage.name ++ ":" ++ toString d.line ++ ":" ++ toString d.column ++ ": " ++ d.message

/-- A diagnostic as a document. -/
def toJson (d : Diagnostic) : Json :=
  .object [("stage", .string d.stage.name), ("message", .string d.message),
    ("line", .number d.line), ("column", .number d.column)]

end Diagnostic

/-- The outcome of a conversion: pseudocode, or what stopped it. -/
structure Report where
  pseudocode : Option String := none
  errors : List Diagnostic := []
  deriving DecidableEq, Repr, Inhabited

namespace Report

/-- Nothing stopped the conversion. -/
def isOk (r : Report) : Bool :=
  r.errors.isEmpty

/-- A report as a document: the diagnostics if there are any, the pseudocode
otherwise. -/
def toJson (r : Report) : Json :=
  if r.isOk then .object [("pseudocode", r.pseudocode.elim .null .string)]
  else .object [("errors", .array (r.errors.map Diagnostic.toJson))]

end Report

end Pseudocode
