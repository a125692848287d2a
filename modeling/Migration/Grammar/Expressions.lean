import Migration.Grammar.Types

/-!
# Expressions

Operators bind by level, loosest first. On every level but the first they associate to the left;
assignment, the first, associates to the right. Accesses and calls bind tightest, and a minus is
accepted only where it touches the number behind it.
-/

namespace Migration

/-- The operators, by level, loosest first. -/
def operatorLevels : List (List String) :=
  [["="], ["||"], ["&&"], ["==", "!="], ["<", ">", "<=", ">="], ["+", "-"], ["*", "/", "%"]]

/-- An operator of the level stands at the cursor. -/
def Cursor.isAtOperator (level : List String) (c : Cursor) : Bool :=
  c.peek.kind == .symbol && level.contains c.peek.text

namespace Parser

/-- A literal of one token. -/
def literal : Parser Expr := do
  let id ← fresh
  let t ← bump
  return .literal ⟨id, t.lead, t.text⟩

/-- A minus and the number that it touches. -/
def negativeNumber : Parser Expr := do
  let next := (← get).peekAt 1
  if next.kind != .number || next.lead != "" then unsupported .unaryOperator
  else
    let id ← fresh
    let sign ← bump
    let number ← bump
    return .literal ⟨id, sign.lead, "-" ++ number.text⟩

/-- The arguments of a call, given how one of them is read. -/
def argumentsOf (self : Parser Expr) : Parser (Listing Expr) := listing "(" ")" self

/-- `new type(args)`. -/
def creationOf (self : Parser Expr) : Parser Expr := do
  let id ← fresh
  let keyword ← bump
  let type ← typeName
  let args ← argumentsOf self
  return .create ⟨id, keyword.lead, type, args⟩

/-- A simple name, or a call of it. -/
def nameOrCallOf (self : Parser Expr) : Parser Expr := do
  if ((← get).peekAt 1).is "(" then
    let id ← fresh
    let name ← ident
    let args ← argumentsOf self
    return .call ⟨id, none, "", name, args⟩
  else return .name (← ident)

/-- `(inner)`. -/
def parensOf (self : Parser Expr) : Parser Expr := do
  let id ← fresh
  let opening ← bump
  let inner ← self
  let close ← expect ")"
  return .parens ⟨id, opening.lead, inner, close⟩

/-- An expression without operators, accesses and calls of members. -/
def primaryOf (self : Parser Expr) : Parser Expr := do
  let t := (← get).peek
  match t.kind with
  | .number | .string | .character => literal
  | .word =>
    if ["true", "false", "null"].contains t.text then literal
    else if t.text == "new" then creationOf self
    else if t.isName then nameOrCallOf self
    else unexpected .expression
  | .symbol =>
    if t.text == "(" then parensOf self
    else if t.text == "-" then negativeNumber
    else unexpected .expression
  | .eof => unexpected .expression

/-- The access or call of a member of `target`, from the dot on. -/
def selectionOf (self : Parser Expr) (target : Expr) : Parser Expr := do
  let id ← fresh
  let dot ← bump
  let name ← memberName
  if (← get).isAt "(" then
    let args ← argumentsOf self
    return .call ⟨id, some target, dot.lead, name, args⟩
  else return .access ⟨id, target, dot.lead, name, none⟩

/-- A primary expression with the accesses and calls behind it. -/
def operandOf (self : Parser Expr) : Parser Expr := do
  let first ← primaryOf self
  repeatWhile (·.isAt ".") (selectionOf self) first

/-- An operator at the cursor and its right operand, with `left` in front of them. -/
def operationOf (right : Parser Expr) (left : Expr) : Parser Expr := do
  let id ← fresh
  let op ← bump
  let right ← right
  return .binary ⟨id, left, op.lead, op.text, right⟩

/-- Operators of the given levels, all of which associate to the left. -/
def operationsOf (self : Parser Expr) : List (List String) → Parser Expr
  | [] => operandOf self
  | level :: tighter => do
    let first ← operationsOf self tighter
    repeatWhile (Cursor.isAtOperator level) (operationOf (operationsOf self tighter)) first

/-- An expression, given how the expressions inside it are read. The right operand of an assignment
is an expression again. -/
def exprOf (self : Parser Expr) : Parser Expr :=
  match operatorLevels with
  | [] => operandOf self
  | assignment :: tighter => do
    let first ← operationsOf self tighter
    repeatWhile (Cursor.isAtOperator assignment) (operationOf self) first

/-- An expression. -/
def expr : Parser Expr := fix exprOf

end Parser

end Migration
