import Pseudocode.Text.Quoted
set_option autoImplicit false

/-!
# File systems (SPEC §6.2)

The command reads a source from one file and writes its result to another.  What files there
are, where a path leads and which of the steps fail is the business of the machine, so the file
system is a parameter of the command: the states that its files can be in, and the steps that the
command takes.  To open a file for writing and to write to it are two steps, and each of them may
fail.
-/

namespace Pseudocode

/-- Why a file cannot be read or written. -/
inductive FileError where
  | missing
  | notDirectory
  | isDirectory
  | noSpace
  | other (description : String)
  deriving DecidableEq, Repr, Inhabited

/-- The wording of a failure with the file at `path`. -/
def FileError.message (path : String) : FileError → String
  | .missing => "[Errno 2] No such file or directory: " ++ Text.quoted path
  | .notDirectory => "[Errno 20] Not a directory: " ++ Text.quoted path
  | .isDirectory => "[Errno 21] Is a directory: " ++ Text.quoted path
  | .noSpace => "[Errno 28] No space left on device"
  | .other description => description

/-- The steps that the command takes on files.  An element of `Files` says how all files are at
one moment. -/
class FileSystem (Files : Type) where
  /-- The files there can be, whatever paths lead to them. -/
  File : Type
  /-- The content of the file at a path. -/
  read : Files → String → Except FileError ByteArray
  /-- Opens the file at a path, to write it from its start. -/
  create : Files → String → Except FileError File × Files
  /-- Writes to a file that is open, and closes it.  If this fails, a part may be written. -/
  write : Files → File → ByteArray → Except FileError Unit × Files

/-- Opens the file at a path and writes a text to it. -/
def FileSystem.save {Files : Type} [FileSystem Files] (files : Files) (path text : String) :
    Except FileError Unit × Files :=
  match create files path with
  | (.error e, left) => (.error e, left)
  | (.ok file, opened) => write opened file text.toUTF8

end Pseudocode
