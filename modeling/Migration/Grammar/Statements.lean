import Migration.Grammar.Expressions

/-!
# Statements

Blocks, returns, local variables and expressions. A statement that starts with a type, a name and
then `=` or `;` declares a variable; everything else that is no keyword is an expression.
-/

namespace Migration

/-- Words that start a statement which is not accepted. -/
def unsupportedStatements : List String :=
  ["if", "else", "for", "while", "do", "switch", "try", "throw", "break", "continue"]

namespace Parser

/-- `= value`, or nothing. -/
def initializer : Parser (Option Initializer) :=
  whenAt "=" do
    let sign ← bump
    let value ← expr
    return ⟨sign.lead, value⟩

/-- The rest of a field or a local variable after its type and name. -/
def variableOf (id : NodeId) (lead : Trivia) (modifiers : List Ident) (type : TypeName)
    (name : Ident) : Parser Variable := do
  let value ← initializer
  let semi ← expect ";"
  return { id, lead, modifiers, type, name, value, semi }

/-- `return value;` after its trivia. -/
def returnOf (id : NodeId) (lead : Trivia) : Parser Return := do
  let _ ← bump
  let value ← if (← get).isAt ";" then pure none else some <$> expr
  let semi ← expect ";"
  return { id, lead, value, semi }

/-- A local variable after its trivia. -/
def localVarOf (id : NodeId) (lead : Trivia) : Parser Variable := do
  let modifiers ← modifiers
  let type ← typeName
  let name ← ident
  variableOf id lead modifiers type name

/-- An expression statement after its trivia. -/
def exprStmtOf (id : NodeId) (lead : Trivia) : Parser ExprStmt := do
  let expr ← expr
  let semi ← expect ";"
  return { id, lead, expr, semi }

end Parser

namespace Cursor

/-- A type, a name and then `=` or `;` follow. -/
def declaresVariable (c : Cursor) : Bool :=
  match Parser.typeName c with
  | .ok (_, c) => c.peek.isName && ((c.peekAt 1).is "=" || (c.peekAt 1).is ";")
  | .error _ => false

/-- A local variable starts at the cursor. -/
def isAtLocalVar (c : Cursor) : Bool :=
  c.isAt "final" || c.peek.isMarker || c.declaresVariable

end Cursor

namespace Parser

/-- A statement, given how the blocks inside it are read. -/
def statementOf (self : Parser Block) : Parser Stmt := do
  let c ← get
  if c.isAt "\x7b" then return .block (← self)
  else if c.isAtAny unsupportedStatements then unsupported (.statement c.peek.text)
  else
    let id ← fresh
    let lead ← takeLead
    let c ← get
    if c.isAt "return" then return .ret (← returnOf id lead)
    else if c.isAtLocalVar then return .localVar (← localVarOf id lead)
    else return .expr (← exprStmtOf id lead)

/-- Items up to a closing brace, which must come before the end of the file. -/
def untilBrace {α : Type} (item : Parser α) : Parser (List α) :=
  many (!·.isAt "\x7d") do
    if (← get).atEnd then unexpected (.token "\x7d") else item

/-- A block, given how the blocks inside it are read. -/
def blockOf (self : Parser Block) : Parser Block := do
  let id ← fresh
  let lead ← expect "\x7b"
  let statements ← untilBrace (statementOf self)
  let close ← expect "\x7d"
  return { id, lead, statements, close }

/-- A block. -/
def block : Parser Block := fix blockOf

end Parser

end Migration
