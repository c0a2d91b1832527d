import Pseudocode.Command.Run
set_option autoImplicit false

/-!
# The command line (SPEC §6.2)

Carries the command out on the real files and streams.
-/

namespace Pseudocode.Command

/-- What went wrong with a file.  The code 20, which may come negated, tells that a
step of the path is no directory. -/
def fileError : IO.Error → FileError
  | .noFileOrDirectory .. => .missing
  | .inappropriateType _ code _ =>
    if code = 20 ∨ code = 0 - 20 then .notDirectory else .isDirectory
  | e => .other (toString e)

/-- Everything that is left on a stream. -/
partial def readAll (stream : IO.FS.Stream) (soFar : String) : IO String := do
  let line ← stream.getLine
  if line.isEmpty then return soFar else readAll stream (soFar ++ line)

/-- The bytes of a file. -/
def fetch (path : String) : IO (Except FileError ByteArray) := do
  try
    return .ok (← IO.FS.readBinFile path)
  catch e =>
    return .error (fileError e)

/-- Opens a file and writes a text to it. -/
def store (path text : String) : IO (Except FileError Unit) := do
  try
    let handle ← IO.FS.Handle.mk path .write
    handle.putStr text
    handle.flush
    return .ok ()
  catch e =>
    return .error (fileError e)

/-- Prints what the command says. -/
def say (r : Response) : IO UInt32 := do
  IO.print r.stdout
  IO.eprint r.stderr
  return r.exit.toUInt32

/-- Carries a response out. -/
def perform (r : Response) : IO UInt32 := do
  match r.file with
  | none => say r
  | some (path, text) =>
    match ← store path text with
    | .ok () => say r
    | .error e => say (r.undelivered path e)

end Pseudocode.Command

open Pseudocode.Command in
/-- Runs the command with the arguments of the process. -/
def main (args : List String) : IO UInt32 := do
  match answerUsage (Options.read args) with
  | .error r => perform r
  | .ok o =>
    let text ←
      if o.fromStandardInput then pure (.ok (← readAll (← IO.getStdin) ""))
      else pure (decodeSource o.input (← fetch o.input))
    match text with
    | .error complaint => say ⟨1, "", complaint, none⟩
    | .ok source =>
      match respond o source with
      | .ok r => perform r
      | .error breakdown => throw (IO.userError (reprStr breakdown))
