import Migration.Grammar.Statements
import Migration.Token.Scan

/-!
# Declarations and modules

Types with their members, and the module around them: a package, imports, then types.
-/

namespace Migration

namespace Parser

/-! ### Members -/

/-- A parameter of a method. -/
def param : Parser Param := do
  let id ← fresh
  let lead ← takeLead
  let modifiers ← modifiers
  let type ← typeName
  let name ← ident
  return { id, lead, modifiers, type, name }

/-- What follows the parameters of a method. -/
def methodBody : Parser MethodBody := do
  let c ← get
  if c.isAt "\x7b" then return .block (← block)
  else if c.isAt ";" then return .absent (← bump).lead
  else if c.isAt "throws" then unsupported .throwsClause
  else unexpected .methodBody

/-- A method from its parameters on. -/
def methodOf (id : NodeId) (lead : Trivia) (modifiers : List Ident)
    (returnType : Option TypeName) (name : Ident) : Parser Method := do
  let params ← listing "(" ")" param
  let body ← methodBody
  return { id, lead, modifiers, returnType, name, params, body }

/-- A field or a method after its modifiers. A name in front of `(` is a constructor. -/
def fieldOrMethodOf (id : NodeId) (lead : Trivia) (modifiers : List Ident) : Parser Member := do
  let c ← get
  let isConstructor := c.peek.isName && (c.peekAt 1).is "("
  let type ← if isConstructor then pure none else some <$> typeName
  let name ← ident
  if (← get).isAt "(" then return .method (← methodOf id lead modifiers type name)
  else
    match type with
    | none => unexpected (.token "(")
    | some type => return .field (← variableOf id lead modifiers type name)

/-! ### Types -/

/-- The keyword of a type declaration: its trivia and its kind. -/
def typeKind : Parser (Trivia × TypeKind) := do
  let c ← get
  if c.isAt "class" then return ((← bump).lead, .ofClass)
  else if c.isAt "interface" then return ((← bump).lead, .ofInterface)
  else if c.isAt "enum" then unsupported .enumDeclaration
  else unexpected .typeKeyword

/-- A type declaration after its modifiers, given how its body is read. -/
def typeDeclOf (body : Parser TypeBody) (id : NodeId) (lead : Trivia) (modifiers : List Ident) :
    Parser TypeDecl := do
  let (kindLead, kind) ← typeKind
  let name ← ident
  let typeParams ← whenAt "<" typeArguments
  let extending ← whenAt "extends" typeClause
  let implementing ← whenAt "implements" typeClause
  let body ← body
  return { id, lead, modifiers, kindLead, kind, name, typeParams, extending, implementing, body }

/-- A member, given how the bodies of types inside it are read. -/
def memberOf (self : Parser TypeBody) : Parser Member := do
  let id ← fresh
  let lead ← takeLead
  let modifiers ← modifiers
  let c ← get
  if c.isAtAny ["class", "interface", "enum"] then
    return .type (← typeDeclOf self id lead modifiers)
  else if c.isAt "<" then unsupported .genericMethod
  else if c.isAt "\x7b" then unsupported .initializerBlock
  else fieldOrMethodOf id lead modifiers

/-- The body of a type, given how the bodies of types inside it are read. -/
def typeBodyOf (self : Parser TypeBody) : Parser TypeBody := do
  let id ← fresh
  let lead ← expect "\x7b"
  let members ← untilBrace (memberOf self)
  let close ← expect "\x7d"
  return { id, lead, members, close }

/-- The body of a type. -/
def typeBody : Parser TypeBody := fix typeBodyOf

/-- A type of a module. -/
def typeDecl : Parser TypeDecl := do
  let id ← fresh
  let lead ← takeLead
  let modifiers ← modifiers
  typeDeclOf typeBody id lead modifiers

/-! ### Modules -/

/-- A package declaration, its keyword being at the cursor. -/
def package : Parser Package := do
  let id ← fresh
  let keyword ← bump
  let (nameLead, name, _) ← dotted false
  let semi ← expect ";"
  return { id, lead := keyword.lead, nameLead, name, semi }

/-- An import, its keyword being at the cursor. -/
def importDecl : Parser Import := do
  let id ← fresh
  let keyword ← bump
  let staticLead ← whenAt "static" (Token.lead <$> bump)
  let (nameLead, name, wildcard) ← dotted true
  let semi ← expect ";"
  return { id, lead := keyword.lead, staticLead, nameLead, name, wildcard, semi }

/-- A whole module. -/
def module : Parser Module := do
  let id ← fresh
  let package ← whenAt "package" package
  let imports ← many (·.isAt "import") importDecl
  let types ← many (!·.atEnd) typeDecl
  let eof ← takeLead
  return { id, package, imports, types, eof, nextId := (← get).nextId }

end Parser

/-- The tree of a row of tokens. -/
def Module.ofTokens (ts : Tokens) : Except ParseError Module :=
  (Parser.module (Cursor.ofTokens ts)).map (·.1)

/-- The tree of a source. -/
def Module.parse (source : String) : Except ParseError Module := do
  Module.ofTokens (← Tokens.ofSource source)

end Migration
