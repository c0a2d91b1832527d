import Pseudocode.Text.Quoted
set_option autoImplicit false

/-!
# JSON documents (SPEC §3.3, §6.2)

Documents are written with two blanks of indentation for each level, one entry a
line, and with characters outside the visible ASCII range escaped.
-/

namespace Pseudocode

/-- A JSON document; the entries of an object keep their order. -/
inductive Json where
  | null
  | number (n : Int)
  | string (s : String)
  | array (items : List Json)
  | object (entries : List (String × Json))
  deriving Repr, Inhabited

namespace Json

/-- A code point below 2 ^ 16 as an escape. -/
def escapeUnit (n : Nat) : String :=
  "\\u" ++ Text.hexDigits 4 n

/-- A character of a string.  Above U+FFFF it is written as a pair of escapes. -/
def escapeChar (c : Char) : String :=
  if c = '"' then "\\\""
  else if c = '\\' then "\\\\"
  else if c = '\n' then "\\n"
  else if c = '\r' then "\\r"
  else if c = '\t' then "\\t"
  else if c = '\x0c' then "\\f"
  else if c = '\x08' then "\\b"
  else if c.toNat < 0x20 then escapeUnit c.toNat
  else if c.toNat < 0x7f then String.ofList [c]
  else if c.toNat < 0x10000 then escapeUnit c.toNat
  else
    let n := c.toNat - 0x10000
    escapeUnit (0xd800 + n / 0x400) ++ escapeUnit (0xdc00 + n % 0x400)

/-- A string in quotes. -/
def quote (s : String) : String :=
  "\"" ++ Text.concat (s.toList.map escapeChar) ++ "\""

/-- The start of a line at the given level. -/
def newline (level : Nat) : String :=
  "\n" ++ Text.repeated "  " level

/-- Entries between brackets, one a line; without entries the brackets touch. -/
def enclose (level : Nat) (left right : String) (entries : List String) : String :=
  if entries.isEmpty then left ++ right
  else
    left ++ newline (level + 1) ++ Text.join ("," ++ newline (level + 1)) entries ++
      newline level ++ right

mutual

/-- A document that stands at the given level. -/
def writeAt (level : Nat) : Json → String
  | .null => "null"
  | .number n => toString n
  | .string s => quote s
  | .array items => enclose level "[" "]" (writeItems (level + 1) items)
  | .object entries => enclose level "\x7b" "\x7d" (writeEntries (level + 1) entries)

/-- The items of an array. -/
def writeItems (level : Nat) : List Json → List String
  | [] => []
  | item :: items => writeAt level item :: writeItems level items

/-- The entries of an object. -/
def writeEntries (level : Nat) : List (String × Json) → List String
  | [] => []
  | (key, value) :: entries =>
    (quote key ++ ": " ++ writeAt level value) :: writeEntries level entries

end

/-- A document as text. -/
def write (document : Json) : String :=
  writeAt 0 document

end Json

end Pseudocode
