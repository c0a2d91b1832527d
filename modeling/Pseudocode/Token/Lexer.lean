import Pseudocode.Token
import Pseudocode.Source.Normal
set_option autoImplicit false

/-!
# Cutting a text into tokens (SPEC §4.3)

White space is skipped.  Anything else starts a token, and the token is the longest
one that can stand there: a word, a number, a literal between quotes, an operator
of two characters, or a single sign.  A literal may not run over the end of its
line.
-/

namespace Pseudocode

/-- Why a text cannot be cut into tokens. -/
inductive LexicalError.Reason where
  | unterminatedLiteral
  | unsupportedCharacter (char : Char)
  deriving DecidableEq, Repr, Inhabited

/-- The wording of a reason. -/
def LexicalError.Reason.message : LexicalError.Reason → String
  | .unterminatedLiteral => "Unterminated string literal"
  | .unsupportedCharacter c => "Unsupported character '" ++ String.ofList [c] ++ "'"

/-- Why and where a text cannot be cut into tokens. -/
structure LexicalError where
  reason : LexicalError.Reason
  pos : Pos
  deriving DecidableEq, Repr, Inhabited

namespace Token

/-- The characters that only separate tokens. -/
def isSpace (c : Char) : Bool :=
  c == '\n' || c == ' ' || c == '\r' || c == '\x0c' || c == '\t'

/-- A character that a word may start with. -/
def isWordStart (c : Char) : Bool :=
  c.isAlpha || c == '_'

/-- A character that a word may go on with. -/
def isWordPart (c : Char) : Bool :=
  isWordStart c || c.isDigit

/-- The words with a meaning of their own. -/
def keywords : List String :=
  ["if", "else", "while", "for", "do", "int", "double", "float", "boolean", "char", "String",
    "void", "public", "static", "class", "return", "true", "false", "new"]

/-- The operators of two characters. -/
def pairs : List (Char × Char) :=
  [('=', '='), ('!', '='), ('<', '='), ('>', '='), ('&', '&'), ('|', '|'), ('+', '+'), ('-', '-'),
    ('+', '='), ('-', '='), ('*', '='), ('/', '='), ('%', '=')]

/-- The signs of one character, with their kinds. -/
def signs : List (Char × Kind) :=
  [('+', .operator), ('-', .operator), ('*', .operator), ('/', .operator), ('%', .operator),
    ('<', .operator), ('>', .operator), ('=', .operator), ('!', .operator), ('(', .paren),
    (')', .paren), ('{', .brace), ('}', .brace), ('[', .bracket), (']', .bracket), ('.', .dot),
    (';', .semicolon), (',', .comma)]

/-- The kind of a word. -/
def wordKind (word : List Char) : Kind :=
  if String.ofList word ∈ keywords then .keyword else .identifier

/-- The number of characters up to and with the closing quote, if there is one on
the line.  A backslash takes the next character of the line with it. -/
def literalLength? (quote : Char) : List Char → Option Nat
  | [] => none
  | '\\' :: c :: cs => if c = '\n' then none else (literalLength? quote cs).map (· + 2)
  | c :: cs =>
    if c = '\n' ∨ c = '\\' then none
    else if c = quote then some 1
    else (literalLength? quote cs).map (· + 1)

/-- The number of digits at the front of a text. -/
def digitCount (cs : List Char) : Nat :=
  (cs.takeWhile Char.isDigit).length

/-- The number of characters that go on with a number: digits, and a point with
the digits behind it. -/
def numberLength (cs : List Char) : Nat :=
  match cs.drop (digitCount cs) with
  | '.' :: rest => digitCount cs + 1 + digitCount rest
  | _ => digitCount cs

/-- The kind of the token that starts with `c`, and how many of the characters
behind it belong to it. -/
def lexeme (c : Char) (cs : List Char) : Except LexicalError.Reason (Kind × Nat) :=
  if isWordStart c then
    .ok (wordKind (c :: cs.takeWhile isWordPart), (cs.takeWhile isWordPart).length)
  else if c.isDigit then .ok (.number, numberLength cs)
  else if Source.isQuote c then
    match literalLength? c cs with
    | some n => .ok (.string, n)
    | none => .error .unterminatedLiteral
  else if cs.head?.any fun d => (c, d) ∈ pairs then .ok (.operator, 1)
  else
    match signs.lookup c with
    | some kind => .ok (kind, 0)
    | none => .error (.unsupportedCharacter c)

/-- The tokens of the characters from position `p` on. -/
def scan (p : Pos) : List Char → Except LexicalError (List Token)
  | [] => .ok [eof p]
  | c :: cs =>
    if isSpace c then scan (p.next c) cs
    else
      match lexeme c cs with
      | .error reason => .error ⟨reason, p⟩
      | .ok (kind, n) =>
        match scan (p.after (c :: cs.take n)) (cs.drop n) with
        | .error e => .error e
        | .ok tokens => .ok (⟨kind, String.ofList (c :: cs.take n), p⟩ :: tokens)
  termination_by cs => cs.length

end Token

/-- The tokens of a text, ending with `eof`. -/
def tokenize (text : String) : Except LexicalError (List Token) :=
  Token.scan .start text.toList

/-- Tokens that computing finds. -/
theorem tokenize_of_toOption {text : String} {tokens : List Token}
    (h : (tokenize text).toOption = some tokens) : tokenize text = .ok tokens := by
  cases hcut : tokenize text with
  | error e =>
    rw [hcut] at h
    cases h
  | ok tokens' =>
    rw [hcut] at h
    exact congrArg _ (Option.some.inj h)

end Pseudocode
