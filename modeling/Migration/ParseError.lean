import Migration.Text.Quoted

/-!
# Why a source is refused

A source is refused at one byte offset, for one of four causes: a token other than those that may
stand there, a comment or quoted literal that never ends, a construct that is recognised and not
accepted, or a character that starts no token.
-/

namespace Migration

/-- What could have stood where an unexpected token was found. -/
inductive Expectation where
  | token (text : String)
  | identifier
  | name
  | expression
  | methodBody
  | typeKeyword
deriving DecidableEq, Repr

/-- A construct that is recognised and not accepted. -/
inductive Construct where
  | spacedName
  | markerArguments
  | enumDeclaration
  | genericMethod
  | initializerBlock
  | throwsClause
  | boundedWildcard
  | arrayType
  | unaryOperator
  | statement (keyword : String)
deriving DecidableEq, Repr

/-- What was opened and never closed. -/
inductive Opening where
  | comment
  | string
  | character
deriving DecidableEq, Repr

/-- The cause for which a source is refused. -/
inductive ParseError where
  /-- `found` is the text of the token, or nothing at the end of the file. -/
  | unexpected (found : Option String) (expected : Expectation) (offset : Nat)
  | unterminated (what : Opening) (offset : Nat)
  | unsupported (what : Construct) (offset : Nat)
  | invalidChar (char : Char) (offset : Nat)
deriving DecidableEq, Repr

def Expectation.text : Expectation → String
  | .token text => "`" ++ text ++ "`"
  | .identifier => "identifier"
  | .name => "name"
  | .expression => "expression"
  | .methodBody => "method body"
  | .typeKeyword => "`class` or `interface`"

def Construct.text : Construct → String
  | .spacedName => "trivia inside a qualified name"
  | .markerArguments => "annotation arguments"
  | .enumDeclaration => "enum declaration"
  | .genericMethod => "generic method declaration"
  | .initializerBlock => "initializer block"
  | .throwsClause => "throws clause"
  | .boundedWildcard => "bounded wildcard"
  | .arrayType => "array type"
  | .unaryOperator => "unary operator"
  | .statement keyword => "`" ++ keyword ++ "` statement"

def Opening.text : Opening → String
  | .comment => "comment"
  | .string => "string"
  | .character => "character literal"

namespace ParseError

/-- The byte offset at which the source is refused. -/
def offset : ParseError → Nat
  | .unexpected _ _ offset => offset
  | .unterminated _ offset => offset
  | .unsupported _ offset => offset
  | .invalidChar _ offset => offset

/-- The wording of each cause. -/
def message : ParseError → String
  | .unexpected found expected offset =>
    let found := match found with
      | some text => "`" ++ text ++ "`"
      | none => "end of file"
    "unexpected " ++ found ++ " at byte " ++ toString offset ++ ", expected " ++ expected.text
  | .unterminated what offset =>
    "unterminated " ++ what.text ++ " starting at byte " ++ toString offset
  | .unsupported what offset =>
    "unsupported syntax at byte " ++ toString offset ++ ": " ++ what.text
  | .invalidChar char offset =>
    "unexpected character " ++ Text.quotedChar char ++ " at byte " ++ toString offset

end ParseError

end Migration
