import Pseudocode.Style.Catalogue
import Pseudocode.Text.Basic
set_option autoImplicit false

/-!
# Options of the command (SPEC §6.2)

The arguments are read from left to right.  An option may stand anywhere; the last
one of a kind counts.  `--help` and `--list-styles` end the reading as soon as they
are met.
-/

namespace Pseudocode.Command

/-- What the command is to do.  An empty `input` or `-` stands for the standard
input, an empty `output` for the standard output. -/
structure Options where
  input : String := ""
  output : String := ""
  style : Option String := none
  json : Bool := false
  verbose : Bool := false
  deriving DecidableEq, Repr, Inhabited

/-- What the arguments ask for. -/
inductive Request where
  | help
  | listStyles
  | convert (options : Options)
  deriving DecidableEq, Repr, Inhabited

/-- Arguments that make no sense. -/
inductive UsageError where
  | missingValue (flag : String)
  | unknownFlag (flag : String)
  | unexpectedArgument (argument : String)
  deriving DecidableEq, Repr, Inhabited

/-- The wording of a usage error. -/
def UsageError.message : UsageError → String
  | .missingValue flag => flag ++ " requires a value"
  | .unknownFlag flag => "unknown flag '" ++ flag ++ "'"
  | .unexpectedArgument argument => "unexpected argument '" ++ argument ++ "'"

namespace Options

/-- Takes an argument that is not an option with a value behind it. -/
def take (o : Options) (arg : String) : Except UsageError Options :=
  match Text.behind? "--style=" arg with
  | some id => .ok { o with style := some id }
  | none =>
    if arg = "--json" then .ok { o with json := true }
    else if arg = "--verbose" ∨ arg = "-v" then .ok { o with verbose := true }
    else if arg.toList.head? = some '-' ∧ arg ≠ "-" then .error (.unknownFlag arg)
    else if o.input = "" then .ok { o with input := arg }
    else .error (.unexpectedArgument arg)

/-- Reads the arguments on from the options met so far. -/
def readFrom (o : Options) : List String → Except UsageError Request
  | [] => .ok (.convert o)
  | arg :: args =>
    if arg = "--help" ∨ arg = "-h" then .ok .help
    else if arg = "--list-styles" then .ok .listStyles
    else if arg = "--style" ∨ arg = "-o" then
      match args with
      | [] => .error (.missingValue arg)
      | value :: rest =>
        if arg = "--style" then readFrom { o with style := some value } rest
        else readFrom { o with output := value } rest
    else
      match o.take arg with
      | .error e => .error e
      | .ok o' => readFrom o' args

/-- Reads the arguments. -/
def read (args : List String) : Except UsageError Request :=
  readFrom {} args

end Options

/-- How the command is used. -/
def usage : String :=
  Text.join "\n"
    ["csconv [OPTIONS] [INPUT]",
      "",
      "Convert a Java teaching subset program to pseudocode.",
      "Reads INPUT, or stdin when INPUT is omitted or '-'.",
      "",
      "Options:",
      "  --style ID     Output style (default: " ++ Style.defaultId ++ ")",
      "  --json         Print the result as a JSON document",
      "  -o FILE        Write pseudocode to FILE instead of stdout",
      "  --verbose      Log pipeline stages to stderr",
      "  --list-styles  Print the available style ids",
      "  --help         Show this help message",
      ""]

end Pseudocode.Command
