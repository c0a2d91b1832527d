import Pseudocode.Position
set_option autoImplicit false

/-!
# Tokens (SPEC §3.1)

A token is a piece of the text with its kind and the place where it starts.  A
list of tokens ends with the token `eof`, which has no text and stands behind the
last character.
-/

namespace Pseudocode

/-- The kinds of token. -/
inductive Kind where
  | identifier
  | keyword
  | number
  | string
  | operator
  | paren
  | brace
  | bracket
  | dot
  | comma
  | semicolon
  | eof
  deriving DecidableEq, Repr, Inhabited

namespace Kind

/-- The name of a kind. -/
def name : Kind → String
  | .identifier => "identifier"
  | .keyword => "keyword"
  | .number => "number"
  | .string => "string"
  | .operator => "operator"
  | .paren => "paren"
  | .brace => "brace"
  | .bracket => "bracket"
  | .dot => "dot"
  | .comma => "comma"
  | .semicolon => "semicolon"
  | .eof => "eof"

/-- Every kind. -/
def all : List Kind :=
  [.identifier, .keyword, .number, .string, .operator, .paren, .brace, .bracket, .dot, .comma,
    .semicolon, .eof]

/-- The kind of the given name. -/
def ofName? (name : String) : Option Kind :=
  all.find? (·.name == name)

end Kind

/-- A piece of text with its kind and the place where it starts. -/
structure Token where
  kind : Kind
  text : String
  pos : Pos
  deriving DecidableEq, Repr, Inhabited

namespace Token

/-- The end of the text. -/
def eof (p : Pos) : Token := ⟨.eof, "", p⟩

/-- How a message names the token: by its text, or by its kind if it has none. -/
def description (t : Token) : String :=
  if t.text = "" then t.kind.name else t.text

end Token

/-- What a reader looks for: a kind of token and, unless any will do, its text. -/
structure Pattern where
  kind : Kind
  text : Option String
  deriving DecidableEq, Repr, Inhabited

namespace Pattern

/-- The token is of the kind and has the text. -/
def fits (p : Pattern) (t : Token) : Bool :=
  t.kind == p.kind && (p.text.isNone || p.text == some t.text)

/-- Any token of a kind. -/
def any (kind : Kind) : Pattern := ⟨kind, none⟩

/-- The keyword `word`. -/
def keyword (word : String) : Pattern := ⟨.keyword, some word⟩

/-- The operator `symbol`. -/
def operator (symbol : String) : Pattern := ⟨.operator, some symbol⟩

/-- A name. -/
def name : Pattern := any .identifier

/-- The sign `(`. -/
def openParen : Pattern := ⟨.paren, some "("⟩

/-- The sign `)`. -/
def closeParen : Pattern := ⟨.paren, some ")"⟩

/-- The sign `{`. -/
def openBrace : Pattern := ⟨.brace, some "\x7b"⟩

/-- The sign `}`. -/
def closeBrace : Pattern := ⟨.brace, some "\x7d"⟩

/-- The sign `[`. -/
def openBracket : Pattern := ⟨.bracket, some "["⟩

/-- The sign `]`. -/
def closeBracket : Pattern := ⟨.bracket, some "]"⟩

/-- The sign `,`. -/
def comma : Pattern := ⟨.comma, some ","⟩

/-- The sign `;`. -/
def semicolon : Pattern := ⟨.semicolon, some ";"⟩

/-- The sign `.`. -/
def dot : Pattern := ⟨.dot, some "."⟩

/-- The end of the text. -/
def eof : Pattern := any .eof

end Pattern

end Pseudocode
