import Migration.Text.Alphabetic
import Migration.Text.Name
import Migration.Text.Numeric

/-!
# Which names are well formed

A configured name is checked by the Unicode properties of its characters and against the keywords.
Inside a dotted name a keyword is a valid segment, as in `com.new.Car`; at either end it is not.
-/

namespace Migration.Name

/-- Words that are no identifiers. -/
def keywords : List String :=
  ["abstract", "assert", "boolean", "break", "byte", "case", "catch", "char", "class", "const",
    "continue", "default", "do", "double", "else", "enum", "extends", "final", "finally", "float",
    "for", "goto", "if", "implements", "import", "instanceof", "int", "interface", "long", "native",
    "new", "package", "private", "protected", "public", "return", "short", "static", "strictfp",
    "super", "switch", "synchronized", "this", "throw", "throws", "transient", "try", "void",
    "volatile", "while", "true", "false", "null"]

/-- A character that an identifier may start with. -/
def isStart (c : Char) : Bool := Text.isAlphabetic c || c == '_' || c == '$'

/-- A character that an identifier may go on with. -/
def isPart (c : Char) : Bool :=
  Text.isAlphabetic c || Text.isNumeric c || c == '_' || c == '$'

/-- The characters of the name are those of an identifier. -/
def isIdentifierShaped (name : String) : Bool :=
  match name.toList with
  | [] => false
  | c :: cs => isStart c && cs.all isPart

/-- The name is an identifier and no keyword. -/
def isIdentifier (name : String) : Bool := isIdentifierShaped name && !keywords.contains name

/-- The segments after the first one: all shaped like identifiers, the last one an identifier. -/
def areSegments : List String → Bool
  | [] => true
  | [last] => isIdentifier last
  | s :: rest => isIdentifierShaped s && areSegments rest

/-- The name is a simple or dotted name of a type. -/
def isTypeName (name : String) : Bool :=
  match segments name with
  | [] => false
  | first :: rest => isIdentifier first && areSegments rest

/-- A qualifier that can name a type: one that starts with `this` or `super` cannot. -/
def isTypeQualifier (qualifier : String) : Bool :=
  head qualifier != "this" && head qualifier != "super"

end Migration.Name
