import Migration.Grammar.Names

/-!
# Types

A use of a type is a dotted name or `?`, with type arguments in `<` and `>` or without.
-/

namespace Migration.Parser

/-- `?`, which must not be bounded. -/
def anyType : Parser (Trivia × String) := do
  let mark ← bump
  let c ← get
  if c.isAt "extends" || c.isAt "super" then unsupported .boundedWildcard
  else return (mark.lead, "?")

/-- The name of a type, without its arguments. -/
def typeHead : Parser (Trivia × String) := do
  if (← get).isAt "?" then anyType
  else
    let (lead, name, _) ← dotted false
    return (lead, name)

/-- Type arguments, given how one of them is read. -/
def typeArgumentsOf (type : Parser TypeName) : Parser TypeArguments := do
  let id ← fresh
  let list ← listing "<" ">" type
  return ⟨id, list⟩

/-- A type, given how the types in its arguments are read. -/
def typeNameOf (self : Parser TypeName) : Parser TypeName := do
  let id ← fresh
  let (lead, name) ← typeHead
  let args ← whenAt "<" (typeArgumentsOf self)
  if (← get).isAt "[" then unsupported .arrayType
  else return { id, lead, name, args, resolved := none }

/-- A type. -/
def typeName : Parser TypeName := fix typeNameOf

/-- Type arguments or type parameters. -/
def typeArguments : Parser TypeArguments := typeArgumentsOf typeName

/-- A keyword followed by types, the keyword being at the cursor. -/
def typeClause : Parser TypeClause := do
  let id ← fresh
  let keyword ← bump
  let types ← separated typeName
  return ⟨id, keyword.lead, types⟩

end Migration.Parser
