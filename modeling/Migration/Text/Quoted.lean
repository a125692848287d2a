import Migration.Text.Combining
import Migration.Text.Hidden

/-!
# Quoted text

How a character or a string is shown inside a message. It stands between quotes, and whatever
would not be recognised as itself is written as an escape: the quote and the backslash, the four
controls that have a short escape, and every combining or hidden character by its code point.
-/

namespace Migration.Text

/-- The lower-case hexadecimal digits of `n`, without padding. -/
def hexDigits (n : Nat) : String := String.ofList (Nat.toDigits 16 n)

/-- How `c` is written between two `quote` characters. -/
def escaped (quote c : Char) : String :=
  if c == '\x00' then "\\0"
  else if c == '\t' then "\\t"
  else if c == '\r' then "\\r"
  else if c == '\n' then "\\n"
  else if c == quote || c == '\\' then "\\" ++ c.toString
  else if isCombining c || isHidden c then "\\u\x7b" ++ hexDigits c.toNat ++ "\x7d"
  else c.toString

/-- A character between single quotes. -/
def quotedChar (c : Char) : String := "'" ++ escaped '\'' c ++ "'"

/-- A string between double quotes. -/
def quotedString (s : String) : String :=
  "\"" ++ String.join (s.toList.map (escaped '"')) ++ "\""

/-- Strings between double quotes, in brackets and separated by commas. -/
def quotedList (ss : List String) : String :=
  "[" ++ ", ".intercalate (ss.map quotedString) ++ "]"

end Migration.Text
