import Migration.Grammar.Cursor

/-!
# Words and names

Which words may be names, and how identifiers, dotted names and modifiers are read. A keyword is
accepted inside a dotted name as long as another segment follows it, as in `com.new.Car`.
-/

namespace Migration

/-- Words that stand in front of a declaration. -/
def modifierWords : List String :=
  ["public", "protected", "private", "static", "final", "abstract", "default", "synchronized",
    "native", "transient", "volatile", "strictfp"]

/-- Words that are no names. -/
def reservedWords : List String :=
  ["class", "interface", "enum", "extends", "implements", "package", "import", "return", "new",
    "if", "else", "for", "while", "do", "switch", "case", "try", "catch", "finally", "throw",
    "throws", "break", "continue", "true", "false", "null", "public", "protected", "private",
    "static", "final", "abstract", "synchronized", "native", "transient", "volatile", "strictfp"]

namespace Token

/-- The token starts like a marker annotation. -/
def isMarker (t : Token) : Bool := t.text.toList.head? == some '@'

/-- The token is a word that is no name. -/
def isReserved (t : Token) : Bool := t.kind == .word && reservedWords.contains t.text

/-- The token is a word that may be a name. -/
def isName (t : Token) : Bool := t.kind == .word && !reservedWords.contains t.text && !t.isMarker

/-- The token may stand as a segment after a dot, with `next` behind it. -/
def isSegment (t next : Token) : Bool :=
  t.kind == .word && !t.isMarker && (!reservedWords.contains t.text || next.is ".")

end Token

namespace Cursor

/-- A modifier stands at the cursor. `default` in front of a colon is none. -/
def isAtModifier (c : Cursor) : Bool :=
  let t := c.peek
  t.kind == .word && (t.isMarker || modifierWords.contains t.text)
    && !(t.text == "default" && (c.peekAt 1).is ":")

end Cursor

namespace Parser

/-- The word at the cursor, whatever it is. -/
def word : Parser Ident := do
  let id ← fresh
  let t ← bump
  return ⟨id, t.lead, t.text⟩

/-- A simple name. -/
def ident : Parser Ident := do
  if (← get).peek.isName then word else unexpected .identifier

/-- The name after the dot of an access, which may be a keyword when another dot follows. -/
def memberName : Parser Ident := do
  let c ← get
  if c.peek.isReserved && (c.peekAt 1).is "." then word else ident

/-- How a dotted name goes on. -/
inductive NameStep where
  | stop
  | wildcard
  | segment (text : String)
deriving DecidableEq, Repr

/-- How a dotted name goes on at the cursor. No trivia may surround its dots. -/
def nameStep (wildcards : Bool) : Parser NameStep := do
  let c ← get
  if !c.isAt "." then return .stop
  else
    let next := c.peekAt 1
    if c.peek.lead != "" || next.lead != "" then unsupported .spacedName
    else if wildcards && next.is "*" then return .wildcard
    else if next.isSegment (c.peekAt 2) then return .segment next.text
    else return .stop

/-- The rest of a dotted name after a segment, dots included, and whether it ends in `.*`, which is
not part of the name. -/
def nameRest (wildcards : Bool) : Parser (String × Bool) :=
  fix fun self => do
    match ← nameStep wildcards with
    | .stop => return ("", false)
    | .wildcard =>
      let _ ← bump
      let _ ← bump
      return ("", true)
    | .segment text =>
      let _ ← bump
      let _ ← bump
      let (rest, wildcard) ← self
      return ("." ++ text ++ rest, wildcard)

/-- A dotted name: its trivia, its spelling, and whether `.*` follows it. -/
def dotted (wildcards : Bool) : Parser (Trivia × String × Bool) := do
  if (← get).peek.isName then
    let first ← bump
    let (rest, wildcard) ← nameRest wildcards
    return (first.lead, first.text ++ rest, wildcard)
  else unexpected .name

/-- A modifier; an annotation must not have arguments. -/
def modifier : Parser Ident := do
  let isMarker := (← get).peek.isMarker
  let m ← word
  if isMarker && (← get).isAt "(" then unsupported .markerArguments else return m

/-- Modifiers in front of a declaration. -/
def modifiers : Parser (List Ident) := many Cursor.isAtModifier modifier

end Parser

end Migration
