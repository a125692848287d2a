import Migration.Tree.Encode

/-!
# Trees from JSON values

A node is read from an object by the names of its fields, or from an array by their order. Fields
that are not known are passed over, and a part that may be missing is missing when its field is.
In an array nothing may be missing, except for the full names known from elsewhere at the end of
their nodes.

A decoder of nodes that contain nodes of their own kind is given the decoder for those; the depth
of the value bounds how far that goes.
-/

namespace Migration

/-- A reader of JSON values. -/
abbrev Decoder (α : Type) := Json → Option α

namespace Decoder

/-! ### Parts -/

/-- A whole number of 32 bits. -/
def id : Decoder NodeId
  | .int n => if 0 ≤ n && n < 4294967296 then some (UInt32.ofNat n.toNat) else none
  | _ => none

/-- A string. -/
def str : Decoder String := Json.str?

/-- A part that is `null` when it is missing. -/
def opt {α : Type} (part : Decoder α) : Decoder (Option α)
  | .null => some none
  | j => (part j).map some

/-- An array of parts. -/
def list {α : Type} (part : Decoder α) : Decoder (List α)
  | .arr items => items.mapM part
  | _ => none

/-! ### Nodes -/

/-- The fields of a node, by name. -/
abbrev Fields := String → Option Json

/-- The fields of a node whose fields are called `names`. In an array at most `spare` of the last
ones may be missing. -/
def fields (names : List String) (spare : Nat) : Decoder Fields
  | .obj pairs => some fun name => (pairs.reverse.find? (·.1 == name)).map (·.2)
  | .arr items =>
    if names.length ≤ items.length + spare && items.length ≤ names.length then
      some fun name => ((names.zip items).find? (·.1 == name)).map (·.2)
    else none
  | _ => none

/-- A field that must be there. -/
def need {α : Type} (fs : Fields) (name : String) (part : Decoder α) : Option α :=
  (fs name).bind part

/-- A field that may be missing. -/
def want {α : Type} (fs : Fields) (name : String) (part : Decoder α) : Option (Option α) :=
  match fs name with
  | none => some none
  | some j => opt part j

/-- A node of one kind out of several: an object with exactly one field. -/
def tagged : Decoder (String × Json)
  | .obj [field] => some field
  | _ => none

/-- The `n`-th approximation of a decoder that is described in terms of itself. -/
def approx {α : Type} (F : Decoder α → Decoder α) : Nat → Decoder α
  | 0, _ => none
  | n + 1, j => F (approx F n) j

/-- The decoder that `F` describes in terms of itself. -/
def fix {α : Type} (F : Decoder α → Decoder α) : Decoder α :=
  fun j => approx F (j.depth + 1) j

/-! ### Names and types -/

/-- An item of a comma-separated list. -/
def padded {α : Type} (elem : Decoder α) : Decoder (Padded α) := fun j => do
  let fs ← fields ["elem", "after"] 0 j
  return ⟨← need fs "elem" elem, ← need fs "after" str⟩

def ident : Decoder Ident := fun j => do
  let fs ← fields ["id", "prefix", "name"] 0 j
  return ⟨← need fs "id" id, ← need fs "prefix" str, ← need fs "name" str⟩

/-- Type arguments, given how one of them is read. -/
def typeArgumentsOf (type : Decoder TypeName) : Decoder TypeArguments := fun j => do
  let fs ← fields ["id", "prefix", "args", "close"] 0 j
  let id ← need fs "id" id
  let lead ← need fs "prefix" str
  let items ← need fs "args" (list (padded type))
  let close ← need fs "close" str
  return ⟨id, ⟨lead, items, close⟩⟩

/-- A type, given how the types in its arguments are read. -/
def typeNameOf (self : Decoder TypeName) : Decoder TypeName := fun j => do
  let fs ← fields ["id", "prefix", "name", "type_args", "resolved"] 1 j
  let id ← need fs "id" id
  let lead ← need fs "prefix" str
  let name ← need fs "name" str
  let args ← want fs "type_args" (typeArgumentsOf self)
  let resolved ← want fs "resolved" str
  return { id, lead, name, args, resolved }

def typeName : Decoder TypeName := fix typeNameOf

def typeArguments : Decoder TypeArguments := typeArgumentsOf typeName

/-! ### Expressions -/

def literal : Decoder Literal := fun j => do
  let fs ← fields ["id", "prefix", "text"] 0 j
  return ⟨← need fs "id" id, ← need fs "prefix" str, ← need fs "text" str⟩

/-- Arguments, given how one of them is read. -/
def argumentsOf (self : Decoder Expr) : Decoder (Listing Expr) := fun j => do
  let fs ← fields ["prefix", "args", "close"] 0 j
  return ⟨← need fs "prefix" str, ← need fs "args" (list (padded self)), ← need fs "close" str⟩

def accessOf (self : Decoder Expr) : Decoder FieldAccess := fun j => do
  let fs ← fields ["id", "target", "dot", "name", "owner"] 1 j
  let id ← need fs "id" id
  let target ← need fs "target" self
  let dot ← need fs "dot" str
  let name ← need fs "name" ident
  let owner ← want fs "owner" str
  return { id, target, dot, name, owner }

def callOf (self : Decoder Expr) : Decoder MethodCall := fun j => do
  let fs ← fields ["id", "target", "dot", "name", "args"] 0 j
  let id ← need fs "id" id
  let target ← want fs "target" self
  let dot ← need fs "dot" str
  let name ← need fs "name" ident
  let args ← need fs "args" (argumentsOf self)
  return { id, target, dot, name, args }

def creationOf (self : Decoder Expr) : Decoder Creation := fun j => do
  let fs ← fields ["id", "prefix", "ty", "args"] 0 j
  let id ← need fs "id" id
  let lead ← need fs "prefix" str
  let type ← need fs "ty" typeName
  let args ← need fs "args" (argumentsOf self)
  return { id, lead, type, args }

def binaryOf (self : Decoder Expr) : Decoder Binary := fun j => do
  let fs ← fields ["id", "left", "op_prefix", "op", "right"] 0 j
  let id ← need fs "id" id
  let left ← need fs "left" self
  let opLead ← need fs "op_prefix" str
  let op ← need fs "op" str
  let right ← need fs "right" self
  return { id, left, opLead, op, right }

def parensOf (self : Decoder Expr) : Decoder Parens := fun j => do
  let fs ← fields ["id", "prefix", "inner", "close"] 0 j
  let id ← need fs "id" id
  let lead ← need fs "prefix" str
  let inner ← need fs "inner" self
  let close ← need fs "close" str
  return { id, lead, inner, close }

/-- An expression, given how the expressions inside it are read. -/
def exprOf (self : Decoder Expr) : Decoder Expr := fun j => do
  match ← tagged j with
  | ("Name", j) => return .name (← ident j)
  | ("FieldAccess", j) => return .access (← accessOf self j)
  | ("MethodCall", j) => return .call (← callOf self j)
  | ("New", j) => return .create (← creationOf self j)
  | ("Literal", j) => return .literal (← literal j)
  | ("Binary", j) => return .binary (← binaryOf self j)
  | ("Parens", j) => return .parens (← parensOf self j)
  | _ => none

def expr : Decoder Expr := fix exprOf

/-! ### Statements -/

def initializer : Decoder Initializer := fun j => do
  let fs ← fields ["prefix", "value"] 0 j
  return ⟨← need fs "prefix" str, ← need fs "value" expr⟩

def variableDecl : Decoder Variable := fun j => do
  let fs ← fields ["id", "prefix", "modifiers", "ty", "name", "init", "semi"] 0 j
  let id ← need fs "id" id
  let lead ← need fs "prefix" str
  let modifiers ← need fs "modifiers" (list ident)
  let type ← need fs "ty" typeName
  let name ← need fs "name" ident
  let value ← want fs "init" initializer
  let semi ← need fs "semi" str
  return { id, lead, modifiers, type, name, value, semi }

def exprStmt : Decoder ExprStmt := fun j => do
  let fs ← fields ["id", "prefix", "expr", "semi"] 0 j
  let id ← need fs "id" id
  let lead ← need fs "prefix" str
  let expr ← need fs "expr" expr
  let semi ← need fs "semi" str
  return { id, lead, expr, semi }

def returnStmt : Decoder Return := fun j => do
  let fs ← fields ["id", "prefix", "value", "semi"] 0 j
  let id ← need fs "id" id
  let lead ← need fs "prefix" str
  let value ← want fs "value" expr
  let semi ← need fs "semi" str
  return { id, lead, value, semi }

/-- A statement, given how the blocks inside it are read. -/
def stmtOf (self : Decoder Block) : Decoder Stmt := fun j => do
  match ← tagged j with
  | ("Expr", j) => return .expr (← exprStmt j)
  | ("LocalVar", j) => return .localVar (← variableDecl j)
  | ("Return", j) => return .ret (← returnStmt j)
  | ("Block", j) => return .block (← self j)
  | _ => none

/-- A block, given how the blocks inside it are read. -/
def blockOf (self : Decoder Block) : Decoder Block := fun j => do
  let fs ← fields ["id", "prefix", "statements", "end"] 0 j
  let id ← need fs "id" id
  let lead ← need fs "prefix" str
  let statements ← need fs "statements" (list (stmtOf self))
  let close ← need fs "end" str
  return { id, lead, statements, close }

def block : Decoder Block := fix blockOf

/-! ### Declarations -/

def param : Decoder Param := fun j => do
  let fs ← fields ["id", "prefix", "modifiers", "ty", "name"] 0 j
  let id ← need fs "id" id
  let lead ← need fs "prefix" str
  let modifiers ← need fs "modifiers" (list ident)
  let type ← need fs "ty" typeName
  let name ← need fs "name" ident
  return { id, lead, modifiers, type, name }

def params : Decoder (Listing Param) := fun j => do
  let fs ← fields ["prefix", "params", "close"] 0 j
  return ⟨← need fs "prefix" str, ← need fs "params" (list (padded param)), ← need fs "close" str⟩

def methodBody : Decoder MethodBody := fun j => do
  match ← tagged j with
  | ("Block", j) => return .block (← block j)
  | ("Abstract", j) => return .absent (← str j)
  | _ => none

def method : Decoder Method := fun j => do
  let fs ← fields ["id", "prefix", "modifiers", "return_type", "name", "params", "body"] 0 j
  let id ← need fs "id" id
  let lead ← need fs "prefix" str
  let modifiers ← need fs "modifiers" (list ident)
  let returnType ← want fs "return_type" typeName
  let name ← need fs "name" ident
  let params ← need fs "params" params
  let body ← need fs "body" methodBody
  return { id, lead, modifiers, returnType, name, params, body }

/-- The keyword of a type, alone or as a field without a value. -/
def typeKind : Decoder TypeKind
  | .str "class" => some .ofClass
  | .str "interface" => some .ofInterface
  | .obj [("class", .null)] => some .ofClass
  | .obj [("interface", .null)] => some .ofInterface
  | _ => none

def typeClause : Decoder TypeClause := fun j => do
  let fs ← fields ["id", "prefix", "types"] 0 j
  return ⟨← need fs "id" id, ← need fs "prefix" str, ← need fs "types" (list (padded typeName))⟩

/-- A type declaration, given how its body is read. -/
def typeDeclOf (body : Decoder TypeBody) : Decoder TypeDecl := fun j => do
  let fs ← fields ["id", "prefix", "modifiers", "kind_prefix", "kind", "name", "type_params",
    "extends", "implements", "body"] 0 j
  let id ← need fs "id" id
  let lead ← need fs "prefix" str
  let modifiers ← need fs "modifiers" (list ident)
  let kindLead ← need fs "kind_prefix" str
  let kind ← need fs "kind" typeKind
  let name ← need fs "name" ident
  let typeParams ← want fs "type_params" typeArguments
  let extending ← want fs "extends" typeClause
  let implementing ← want fs "implements" typeClause
  let body ← need fs "body" body
  return { id, lead, modifiers, kindLead, kind, name, typeParams, extending, implementing, body }

/-- A member, given how the bodies of types inside it are read. -/
def memberOf (self : Decoder TypeBody) : Decoder Member := fun j => do
  match ← tagged j with
  | ("Field", j) => return .field (← variableDecl j)
  | ("Method", j) => return .method (← method j)
  | ("Class", j) => return .type (← typeDeclOf self j)
  | _ => none

/-- The body of a type, given how the bodies of types inside it are read. -/
def typeBodyOf (self : Decoder TypeBody) : Decoder TypeBody := fun j => do
  let fs ← fields ["id", "prefix", "members", "end"] 0 j
  let id ← need fs "id" id
  let lead ← need fs "prefix" str
  let members ← need fs "members" (list (memberOf self))
  let close ← need fs "end" str
  return { id, lead, members, close }

def typeBody : Decoder TypeBody := fix typeBodyOf

def typeDecl : Decoder TypeDecl := typeDeclOf typeBody

/-! ### Modules -/

def package : Decoder Package := fun j => do
  let fs ← fields ["id", "prefix", "name_prefix", "name", "semi"] 0 j
  let id ← need fs "id" id
  let lead ← need fs "prefix" str
  let nameLead ← need fs "name_prefix" str
  let name ← need fs "name" str
  let semi ← need fs "semi" str
  return { id, lead, nameLead, name, semi }

def importDecl : Decoder Import := fun j => do
  let fs ← fields ["id", "prefix", "static_prefix", "name_prefix", "name", "wildcard", "semi"] 0 j
  let id ← need fs "id" id
  let lead ← need fs "prefix" str
  let staticLead ← want fs "static_prefix" str
  let nameLead ← need fs "name_prefix" str
  let name ← need fs "name" str
  let wildcard ← need fs "wildcard" Json.bool?
  let semi ← need fs "semi" str
  return { id, lead, staticLead, nameLead, name, wildcard, semi }

def module : Decoder Module := fun j => do
  let fs ← fields ["id", "package", "imports", "types", "eof", "next_id"] 0 j
  let mid ← need fs "id" id
  let package ← want fs "package" package
  let imports ← need fs "imports" (list importDecl)
  let types ← need fs "types" (list typeDecl)
  let eof ← need fs "eof" str
  let nextId ← need fs "next_id" id
  return { id := mid, package, imports, types, eof, nextId }

end Decoder

/-- The module that a JSON value describes. -/
def Module.ofJson? (j : Json) : Option Module := Decoder.module j

end Migration
