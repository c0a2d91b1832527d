import Pseudocode.Command.FileSystem
import Pseudocode.Command.Options
import Pseudocode.Conversion
set_option autoImplicit false

/-!
# The command (SPEC §6.2, §8)

The command reads a source, converts it and writes the pseudocode or a JSON document
to the standard output or to a file.  Here it is a function of its arguments, the
standard input and the files of any file system.  It ends with 0 if all went well, with 1
if a source could not be read or converted or a file could not be written, and with 2 if
its arguments make no sense.
-/

namespace Pseudocode

/-- The line that tells of an event. -/
def Event.line : Event → String
  | .normalized n => "csconv.pipeline: normalized " ++ toString n ++ " characters\n"
  | .inScope => "csconv.pipeline: scope guard passed\n"
  | .tokenized n => "csconv.pipeline: tokenized " ++ toString n ++ " tokens\n"
  | .parsed n => "csconv.pipeline: parsed " ++ toString n ++ " top-level statements\n"
  | .emitted n id =>
    "csconv.backend.pseudo: emitted " ++ toString n ++ " lines in style " ++ id ++ "\n"
  | .rejected d => "csconv.pipeline: rejected at " ++ d.text ++ "\n"

namespace Command

/-- A complaint of the command itself. -/
def complaint (text : String) : String :=
  "csconv: " ++ text ++ "\n"

/-- A complaint about the file at `path`. -/
def fileComplaint (path text : String) : String :=
  complaint (path ++ ": " ++ text)

/-! ## Reading the source -/

/-- Whether the source comes from the standard input. -/
def Options.fromStandardInput (o : Options) : Bool :=
  o.input == "" || o.input == "-"

/-- The text of a file, or the complaint about it. -/
def decodeSource (path : String) (content : Except FileError ByteArray) : Except String String :=
  match content with
  | .error .missing => .error (fileComplaint path "No such file or directory")
  | .error e => .error (fileComplaint path (e.message path))
  | .ok bytes =>
    match String.fromUTF8? bytes with
    | some text => .ok text
    | none => .error (fileComplaint path "invalid utf-8")

/-! ## Answering -/

/-- What the command says and does once it has read the source.  If there is a file to
write, that comes first and may still fail. -/
structure Response where
  exit : Nat
  stdout : String
  stderr : String
  file : Option (String × String) := none
  deriving DecidableEq, Repr, Inhabited

/-- Hands out a result: to the standard output, or to the output file. -/
def deliver (o : Options) (log text : String) : Response :=
  if o.output = "" then ⟨0, text ++ "\n", log, none⟩
  else ⟨0, "", log, some (o.output, text ++ "\n")⟩

/-- The answer to a finished conversion. -/
def answerReport (o : Options) (log : String) (report : Report) : Response :=
  if report.isOk then
    deliver o log (if o.json then report.toJson.write else report.pseudocode.getD "")
  else if o.json then ⟨1, report.toJson.write ++ "\n", log, none⟩
  else
    ⟨1, "", log ++ Text.concat (report.errors.map fun d => "error: " ++ d.text ++ "\n"), none⟩

/-- The answer to a source.  There is none if the conversion breaks down. -/
def respond (o : Options) (source : String) : Except Breakdown Response :=
  let conversion := Conversion.run source o.style
  let log := if o.verbose then Text.concat (conversion.events.map Event.line) else ""
  conversion.outcome.map (answerReport o log)

/-! ## The whole command -/

/-- The answer to arguments that ask for no conversion. -/
def answerUsage : Except UsageError Request → Except Response Options
  | .error e => .error ⟨2, "", complaint e.message, none⟩
  | .ok .help => .error ⟨0, usage, "", none⟩
  | .ok .listStyles => .error ⟨0, Text.concat (Style.ids.map (· ++ "\n")), "", none⟩
  | .ok (.convert o) => .ok o

/-- How the command ends: its exit code, what it printed, and the files behind it. -/
structure Outcome (Files : Type) where
  exit : Nat
  stdout : String
  stderr : String
  files : Files

/-- The answer when its file could not be written. -/
def Response.undelivered (r : Response) (path : String) (e : FileError) : Response :=
  ⟨1, "", r.stderr ++ fileComplaint path (e.message path), none⟩

/-- What is said, with the files that were left. -/
def Response.leaving {Files : Type} (r : Response) (files : Files) : Outcome Files :=
  ⟨r.exit, r.stdout, r.stderr, files⟩

section

variable {Files : Type} [FileSystem Files]

/-- Carries out a response. -/
def Response.carryOut (r : Response) (files : Files) : Outcome Files :=
  match r.file with
  | none => r.leaving files
  | some (path, text) =>
    match FileSystem.save files path text with
    | (.ok (), saved) => r.leaving saved
    | (.error e, left) => (r.undelivered path e).leaving left

/-- The source that the options ask for. -/
def source (o : Options) (stdin : String) (files : Files) : Except String String :=
  if o.fromStandardInput then .ok stdin
  else decodeSource o.input (FileSystem.read files o.input)

/-- Runs the command. -/
def run (args : List String) (stdin : String) (files : Files) :
    Except Breakdown (Outcome Files) :=
  match answerUsage (Options.read args) with
  | .error r => .ok (r.carryOut files)
  | .ok o =>
    match source o stdin files with
    | .error text => .ok ⟨1, "", text, files⟩
    | .ok text => (respond o text).map (·.carryOut files)

end

end Command

end Pseudocode
