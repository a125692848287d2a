import Migration.ParseError
import Migration.Token.Basic

/-!
# From text to tokens

Scanning alternates between trivia and lexemes. Trivia is read by one pass over the characters that
knows whether it stands between comments or inside one; a lexeme is read by its first character.
Offsets count UTF-8 bytes and are carried along, so every offset is the length of the text before
it.
-/

namespace Migration.Scan

/-- The length of a text in UTF-8 bytes. -/
def byteLength (cs : List Char) : Nat := cs.foldr (·.utf8Size + ·) 0

/-! ### Trivia -/

/-- A blank between tokens: space, tab, line feed, form feed or carriage return. -/
def isBlank (c : Char) : Bool :=
  c == ' ' || c == '\t' || c == '\n' || c == '\x0c' || c == '\r'

/-- Where a reader of trivia stands. -/
inductive TriviaState where
  | between
  | lineComment
  /-- Inside a block comment; `start` is the offset of its opening. -/
  | blockComment (start : Nat)
deriving DecidableEq, Repr

/-- The longest trivia at the front of the characters, and what follows it. `offset` is that of the
first character. -/
def trivia : TriviaState → Nat → List Char → Except ParseError (List Char × List Char)
  | .between, offset, '/' :: '/' :: rest => do
    let (t, rest) ← trivia .lineComment (offset + 2) rest
    return ('/' :: '/' :: t, rest)
  | .between, offset, '/' :: '*' :: rest => do
    let (t, rest) ← trivia (.blockComment offset) (offset + 2) rest
    return ('/' :: '*' :: t, rest)
  | .between, offset, c :: rest =>
    if isBlank c then do
      let (t, rest) ← trivia .between (offset + c.utf8Size) rest
      return (c :: t, rest)
    else return ([], c :: rest)
  | .lineComment, offset, c :: rest => do
    let (t, rest) ← trivia (if c == '\n' then .between else .lineComment) (offset + c.utf8Size) rest
    return (c :: t, rest)
  | .blockComment _, offset, '*' :: '/' :: rest => do
    let (t, rest) ← trivia .between (offset + 2) rest
    return ('*' :: '/' :: t, rest)
  | .blockComment start, offset, c :: rest => do
    let (t, rest) ← trivia (.blockComment start) (offset + c.utf8Size) rest
    return (c :: t, rest)
  | .blockComment start, _, [] => .error (.unterminated .comment start)
  | _, _, [] => return ([], [])

/-! ### Lexemes -/

/-- A character that may start a word. Words are ASCII. -/
def isWordStart (c : Char) : Bool := c.isAlpha || c == '_' || c == '$'

/-- A character that may continue a word. -/
def isWordPart (c : Char) : Bool := c.isAlphanum || c == '_' || c == '$'

/-- A character that may continue a number. -/
def isNumberPart (c : Char) : Bool := c.isAlphanum || c == '_' || c == '.'

/-- The symbols; where one begins another, the longer comes first. -/
def symbols : List String :=
  ["==", "!=", "<=", ">=", "&&", "||", "(", ")", "\x7b", "\x7d", "[", "]", ";", ",", ".", "<", ">",
    "=", "+", "-", "*", "/", "%", "!", "?", "&", "|", "^", "~", ":"]

/-- The rest of a quoted literal after its opening quote, through its closing one. A backslash takes
the next character with it, and a bare line feed ends the literal too early. -/
def quotedRest (quote : Char) : List Char → Option (List Char × List Char)
  | [] => none
  | '\\' :: c :: rest => (quotedRest quote rest).map fun (body, rest) => ('\\' :: c :: body, rest)
  | c :: rest =>
    if c == '\\' || c == '\n' then none
    else if c == quote then some ([c], rest)
    else (quotedRest quote rest).map fun (body, rest) => (c :: body, rest)

/-- The longest symbol at the front of the characters. -/
def symbol? (cs : List Char) : Option (List Char × List Char) :=
  (symbols.find? fun s => s.toList.isPrefixOf cs).map fun s =>
    (s.toList, cs.drop s.toList.length)

/-- A word starts here: a letter, or an annotation's `@` in front of one. -/
def startsWord : List Char → Bool
  | '@' :: c :: _ => isWordStart c
  | c :: _ => isWordStart c
  | [] => false

/-- The lexeme at the front of the characters, of which `c` is the first, and what follows it. -/
def lexeme (offset : Nat) (c : Char) (rest : List Char) :
    Except ParseError (TokenKind × List Char × List Char) :=
  if startsWord (c :: rest) then
    .ok (.word, c :: rest.takeWhile isWordPart, rest.dropWhile isWordPart)
  else if c.isDigit then
    .ok (.number, c :: rest.takeWhile isNumberPart, rest.dropWhile isNumberPart)
  else if c == '"' then
    match quotedRest c rest with
    | some (body, rest) => .ok (.string, c :: body, rest)
    | none => .error (.unterminated .string offset)
  else if c == '\'' then
    match quotedRest c rest with
    | some (body, rest) => .ok (.character, c :: body, rest)
    | none => .error (.unterminated .character offset)
  else
    match symbol? (c :: rest) with
    | some (text, rest) => .ok (.symbol, text, rest)
    | none => .error (.invalidChar c offset)

/-! ### Sources -/

/-- The tokens of the characters from `offset` on, reading at most `n` of them. -/
def tokensUpTo : Nat → Nat → List Char → Except ParseError Tokens
  | 0, offset, _ => .ok ⟨[], ⟨.eof, "", "", offset⟩⟩
  | n + 1, offset, cs => do
    let (lead, rest) ← trivia .between offset cs
    let offset := offset + byteLength lead
    match rest with
    | [] => return ⟨[], ⟨.eof, String.ofList lead, "", offset⟩⟩
    | c :: rest =>
      let (kind, text, rest) ← lexeme offset c rest
      let tokens ← tokensUpTo n (offset + byteLength text) rest
      return tokens.cons ⟨kind, String.ofList lead, String.ofList text, offset⟩

end Scan

/-- The tokens of a source. Every token but the last takes a character, so as many rounds as there
are characters, and one for the end, are enough. -/
def Tokens.ofSource (source : String) : Except ParseError Tokens :=
  Scan.tokensUpTo (source.toList.length + 1) 0 source.toList

end Migration
