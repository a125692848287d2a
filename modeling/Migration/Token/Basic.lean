/-!
# Tokens

A source is a row of tokens, each with the trivia in front of it: the blanks and comments that
follow the token before. The end of the file counts as a token without text, so trailing trivia
has a place too, and the tokens of a source spell it without loss.
-/

namespace Migration

/-- Blanks and comments, exactly as they stand in the source. -/
abbrev Trivia := String

/-- What a token is. Keywords and marker annotations such as `@Override` are words. -/
inductive TokenKind where
  | word
  | number
  | string
  | character
  | symbol
  | eof
deriving DecidableEq, Repr

/-- A token of a source. -/
structure Token where
  kind : TokenKind
  /-- The trivia in front of the token. -/
  lead : Trivia
  text : String
  /-- How many bytes of the source precede `text`. -/
  offset : Nat
deriving DecidableEq, Repr

namespace Token

/-- The token is spelled `text` and is no quoted literal. -/
def is (t : Token) (text : String) : Bool :=
  t.kind != .string && t.kind != .character && t.text == text

/-- What the token contributes to the source. -/
def source (t : Token) : String := t.lead ++ t.text

/-- The token with no trivia in front of it. -/
def bare (t : Token) : Token := { t with lead := "" }

end Token

/-- The tokens of a source: those with text, then the end of the file. -/
structure Tokens where
  words : List Token
  eof : Token
deriving DecidableEq, Repr

namespace Tokens

/-- All tokens in order, the end of the file last. -/
def toList (ts : Tokens) : List Token := ts.words ++ [ts.eof]

/-- The text that the tokens spell. -/
def source (ts : Tokens) : String := String.join (ts.toList.map Token.source)

/-- The tokens with one more in front. -/
def cons (t : Token) (ts : Tokens) : Tokens := { ts with words := t :: ts.words }

end Tokens

end Migration
