import Pseudocode.Diagnostic
import Pseudocode.Reader.Program
import Pseudocode.Render.Stmt
import Pseudocode.Scope
import Pseudocode.Source.Column
import Pseudocode.Style.Catalogue
import Pseudocode.Token.Lexer
set_option autoImplicit false

/-!
# Conversion (SPEC §2, §6.1, §7)

A source is brought into normal form, checked for its scope, cut into tokens, read as
a program and written as pseudocode.  The first failure ends the conversion.  Its
place is found in the normal form and reported as a place in the source.
-/

namespace Pseudocode

/-- Something worth noting on the way. -/
inductive Event where
  | normalized (characters : Nat)
  | inScope
  | tokenized (tokens : Nat)
  | parsed (statements : Nat)
  | emitted (lines : Nat) (styleId : String)
  | rejected (d : Diagnostic)
  deriving DecidableEq, Repr, Inhabited

/-- What can go wrong with a conversion apart from the source: reading ran out of
tokens, or a program cannot be rendered. -/
inductive Breakdown where
  | exhausted
  | render (e : RenderError)
  deriving DecidableEq, Repr, Inhabited

/-- A conversion: what was noted on the way, and its outcome. -/
structure Conversion where
  events : List Event
  outcome : Except Breakdown Report

namespace Conversion

/-- A conversion that a failure ended. -/
def reject (events : List Event) (d : Diagnostic) : Conversion :=
  ⟨events ++ [.rejected d], .ok { errors := [d] }⟩

/-- A failure at a place in the normal form of `source`. -/
def located (source : String) (stage : Stage) (message : String) (p : Pos) : Diagnostic :=
  ⟨stage, message, p.line, Source.sourceColumn source p.line p.column⟩

/-- Writes a program that was read. -/
def finish (events : List Event) (style : Style) (program : Program) : Conversion :=
  let events := events ++ [.parsed program.body.length]
  match program.render style with
  | .error e => ⟨events, .error (.render e)⟩
  | .ok page =>
    ⟨events ++ [.emitted page.sheet.lines.length style.id],
      .ok { pseudocode := some page.output }⟩

/-- Reads the tokens of a source and writes the program. -/
def ofTokens (events : List Event) (source : String) (style : Style) (tokens : List Token) :
    Conversion :=
  let events := events ++ [.tokenized tokens.length]
  match Program.ofTokens tokens with
  | .error (.refused reason t _) =>
    reject events (located source .parse reason.message t.pos)
  | .error .exhausted => ⟨events, .error .exhausted⟩
  | .ok program => finish events style program

/-- Converts a source that is not blank. -/
def ofSource (source : String) (style : Style) : Conversion :=
  let normal := Source.normalize source
  let events := [.normalized normal.length]
  match Scope.violation? normal with
  | some (construct, p) => reject events (located source .scope construct.reason p)
  | none =>
    let events := events ++ [.inScope]
    match tokenize normal with
    | .error e => reject events (located source .tokenization e.reason.message e.pos)
    | .ok tokens => ofTokens events source style tokens

/-- Converts a source in the style of the given name. -/
def run (source : String) (styleId : Option String) : Conversion :=
  if Text.isBlankText source then reject [] ⟨.input, "Empty input", 1, 1⟩
  else
    match Style.select styleId with
    | .error unknown => reject [] ⟨.input, unknown.message, 1, 1⟩
    | .ok style => ofSource source style

end Conversion

/-- Converts a source to pseudocode, in the style of the given name or in the default
one. -/
def convert (source : String) (styleId : Option String) : Except Breakdown Report :=
  (Conversion.run source styleId).outcome

end Pseudocode
