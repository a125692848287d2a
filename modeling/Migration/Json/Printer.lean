import Migration.Json.Basic
import Migration.Text.Quoted

/-!
# JSON text, written

Two layouts of a value as text: on one line, and spread over lines with two spaces for each level.
Strings are written as they are but for the quote, the backslash and the controls below U+0020.
-/

namespace Migration.Json

/-- How a character stands inside a JSON string. -/
def escapedChar (c : Char) : String :=
  if c == '"' then "\\\""
  else if c == '\\' then "\\\\"
  else if c == '\n' then "\\n"
  else if c == '\r' then "\\r"
  else if c == '\t' then "\\t"
  else if c == '\x08' then "\\b"
  else if c == '\x0c' then "\\f"
  else if c.toNat < 0x20 then
    (if c.toNat < 0x10 then "\\u000" else "\\u00") ++ Text.hexDigits c.toNat
  else c.toString

/-- A string literal. -/
def quoted (s : String) : String := "\"" ++ String.join (s.toList.map escapedChar) ++ "\""

mutual

/-- A value on one line, without blanks. -/
def compact : Json → String
  | .null => "null"
  | .bool true => "true"
  | .bool false => "false"
  | .int n => toString n
  | .real spelling => spelling
  | .str s => quoted s
  | .arr items => "[" ++ ",".intercalate (compactItems items) ++ "]"
  | .obj fields => "\x7b" ++ ",".intercalate (compactFields fields) ++ "\x7d"
termination_by structural j => j

/-- The items of an array, each on one line. -/
def compactItems : List Json → List String
  | [] => []
  | j :: js => compact j :: compactItems js
termination_by structural js => js

/-- The fields of an object, each on one line. -/
def compactFields : List (String × Json) → List String
  | [] => []
  | (k, j) :: js => (quoted k ++ ":" ++ compact j) :: compactFields js
termination_by structural js => js

end

/-- A line break followed by the indentation of a nesting level. -/
def lineBreak (level : Nat) : String := "\n" ++ "".pushn ' ' (2 * level)

/-- Items between brackets, one a line; a container without items stays on one line. -/
def spread (opening closing : String) (level : Nat) (items : List String) : String :=
  if items.isEmpty then opening ++ closing
  else
    opening ++ lineBreak (level + 1) ++ ("," ++ lineBreak (level + 1)).intercalate items
      ++ lineBreak level ++ closing

mutual

/-- A value spread over lines, standing at a nesting level. -/
def prettyAt (level : Nat) : Json → String
  | .arr items => spread "[" "]" level (prettyItems (level + 1) items)
  | .obj fields => spread "\x7b" "\x7d" level (prettyFields (level + 1) fields)
  | .null => "null"
  | .bool true => "true"
  | .bool false => "false"
  | .int n => toString n
  | .real spelling => spelling
  | .str s => quoted s
termination_by structural j => j

/-- The items of an array, spread over lines. -/
def prettyItems (level : Nat) : List Json → List String
  | [] => []
  | j :: js => prettyAt level j :: prettyItems level js
termination_by structural js => js

/-- The fields of an object, spread over lines. -/
def prettyFields (level : Nat) : List (String × Json) → List String
  | [] => []
  | (k, j) :: js => (quoted k ++ ": " ++ prettyAt level j) :: prettyFields level js
termination_by structural js => js

end

/-- A value spread over lines with two spaces for each level. -/
def pretty (j : Json) : String := prettyAt 0 j

end Migration.Json
