import Migration.Text.Name
import Migration.Token.Basic

/-!
# What trivia holds

Empty lines and comments in the trivia in front of a node. An empty line divides imports into
groups.
-/

namespace Migration.Trivia

/-- The lines of a text, without their line feeds. -/
def lines (t : Trivia) : List (List Char) := Name.splitAt '\n' t.toList

/-- A line of spaces, tabs and carriage returns only. -/
def isEmptyLine (line : List Char) : Bool := line.all fun c => c == ' ' || c == '\t' || c == '\r'

/-- There is an empty line between two line feeds. -/
def hasBlankLine (t : Trivia) : Bool := (lines t).tail.dropLast.any isEmptyLine

/-- A comment opens somewhere in the characters. -/
def opensComment : List Char → Bool
  | '/' :: '/' :: _ => true
  | '/' :: '*' :: _ => true
  | _ :: rest => opensComment rest
  | [] => false

/-- There is a comment. -/
def hasComment (t : Trivia) : Bool := opensComment t.toList

end Migration.Trivia
