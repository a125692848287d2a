import Migration.Text.Name
import Migration.Token.Basic

/-!
# Trees of source modules

The tree of a source module, from the whole module down to single names. Every node keeps the trivia
in front of its first token (`lead`) and in front of each fixed token after it (`semi`, `close`, …),
so that a tree determines its text. Compound expressions are the one exception: `a.b`, `a + b` and
`a.f()` have no trivia of their own, their leftmost leaf carries it.

Nodes are numbered. A number identifies a node in reports and says which names a pass has pointed
elsewhere; it has no influence on the text.
-/

namespace Migration

/-- The number of a node. Numbers are 32 bits wide and wrap around. -/
abbrev NodeId := UInt32

/-- An item of a comma-separated list, with the trivia in front of the comma that follows it. The
last item is followed by no comma, and its trivia is not written. -/
structure Padded (α : Type) where
  elem : α
  after : Trivia
deriving DecidableEq, Repr

/-- A comma-separated list between brackets. -/
structure Listing (α : Type) where
  /-- The trivia in front of the opening bracket. -/
  lead : Trivia
  items : List (Padded α)
  /-- The trivia in front of the closing bracket. -/
  close : Trivia
deriving DecidableEq, Repr

/-- A single word: a simple name, a modifier, or a marker annotation such as `@Override`. -/
structure Ident where
  id : NodeId
  lead : Trivia
  name : String
deriving DecidableEq, Repr

namespace Ident

/-- The word is a marker annotation. -/
def isMarker (i : Ident) : Bool := i.name.toList.head? == some '@'

/-- The same word, spelled otherwise. -/
def withName (i : Ident) (name : String) : Ident := { i with name }

end Ident

/-! ### Types -/

mutual

/-- A use of a type: `Vehicle`, `java.util.List<String>`, `?`. -/
structure TypeName where
  id : NodeId
  lead : Trivia
  /-- The name as it is spelled, dots included. -/
  name : String
  args : Option TypeArguments
  /-- The full name of the type, where it is known from elsewhere. -/
  resolved : Option String

/-- The types between `<` and `>`. -/
structure TypeArguments where
  id : NodeId
  list : Listing TypeName

end

namespace TypeName

/-- The last segment of the spelled name. -/
def simpleName (t : TypeName) : String := Name.simple t.name

/-- The name is spelled with a package or an outer type. -/
def isQualified (t : TypeName) : Bool := Name.isQualified t.name

/-- The same use, of a type spelled otherwise. What was known about the old name is dropped. -/
def withName (t : TypeName) (name : String) : TypeName := { t with name, resolved := none }

/-- The same use, with its full name known. -/
def withResolved (t : TypeName) (name : String) : TypeName := { t with resolved := some name }

/-- The same use with other type arguments. -/
def withArgs (t : TypeName) (args : Option TypeArguments) : TypeName := { t with args }

end TypeName

/-! ### Expressions -/

/-- A literal as it is spelled: `10`, `-1`, `"text"`, `null`. -/
structure Literal where
  id : NodeId
  lead : Trivia
  text : String
deriving DecidableEq, Repr

mutual

/-- An expression. -/
inductive Expr where
  | name (ident : Ident)
  | access (access : FieldAccess)
  | call (call : MethodCall)
  | create (creation : Creation)
  | literal (literal : Literal)
  | binary (binary : Binary)
  | parens (parens : Parens)

/-- `target.name`, which refers to a member when the target names a type. -/
structure FieldAccess where
  id : NodeId
  target : Expr
  dot : Trivia
  name : Ident
  /-- The full name of the type that owns the member, where it is known from elsewhere. -/
  owner : Option String

/-- `target.name(args)` or `name(args)`; without a target, `dot` is not written. -/
structure MethodCall where
  id : NodeId
  target : Option Expr
  dot : Trivia
  name : Ident
  args : Listing Expr

/-- `new type(args)`. -/
structure Creation where
  id : NodeId
  lead : Trivia
  type : TypeName
  args : Listing Expr

/-- `left op right`. -/
structure Binary where
  id : NodeId
  left : Expr
  opLead : Trivia
  op : String
  right : Expr

/-- `(inner)`. -/
structure Parens where
  id : NodeId
  lead : Trivia
  inner : Expr
  close : Trivia

end

/-- The trivia in front of the first token. -/
def Expr.lead : Expr → Trivia
  | .name ident => ident.lead
  | .access ⟨_, target, _, _, _⟩ => target.lead
  | .call ⟨_, some target, _, _, _⟩ => target.lead
  | .call ⟨_, none, _, member, _⟩ => member.lead
  | .create c => c.lead
  | .literal l => l.lead
  | .binary ⟨_, left, _, _, _⟩ => left.lead
  | .parens p => p.lead
termination_by structural e => e

/-- The dotted name that a plain chain of names spells, such as `com.acme.Limits`. -/
def Expr.dottedName? : Expr → Option String
  | .name ident => some ident.name
  | .access ⟨_, target, _, member, _⟩ => target.dottedName?.map (Name.join · member.name)
  | _ => none
termination_by structural e => e

/-- The number of the outermost node. -/
def Expr.id : Expr → NodeId
  | .name ident => ident.id
  | .access a => a.id
  | .call c => c.id
  | .create c => c.id
  | .literal l => l.id
  | .binary b => b.id
  | .parens p => p.id

/-! ### Statements -/

/-- `= value` of a field or a local variable. -/
structure Initializer where
  lead : Trivia
  value : Expr

/-- A field or a local variable: `final int MAX = 10;`. -/
structure Variable where
  id : NodeId
  lead : Trivia
  modifiers : List Ident
  type : TypeName
  name : Ident
  value : Option Initializer
  semi : Trivia

/-- `expr;` -/
structure ExprStmt where
  id : NodeId
  lead : Trivia
  expr : Expr
  semi : Trivia

/-- `return value;` -/
structure Return where
  id : NodeId
  lead : Trivia
  value : Option Expr
  semi : Trivia

mutual

/-- A statement. -/
inductive Stmt where
  | expr (stmt : ExprStmt)
  | localVar (var : Variable)
  | ret (stmt : Return)
  | block (block : Block)

/-- Statements between braces. -/
structure Block where
  id : NodeId
  lead : Trivia
  statements : List Stmt
  close : Trivia

end

/-! ### Declarations -/

/-- A parameter of a method. -/
structure Param where
  id : NodeId
  lead : Trivia
  modifiers : List Ident
  type : TypeName
  name : Ident

/-- What follows the parameters of a method. -/
inductive MethodBody where
  | block (block : Block)
  /-- No body but a semicolon, with the trivia in front of it. -/
  | absent (semi : Trivia)

/-- A method, or a constructor when it has no return type. -/
structure Method where
  id : NodeId
  lead : Trivia
  modifiers : List Ident
  returnType : Option TypeName
  name : Ident
  params : Listing Param
  body : MethodBody

/-- The two kinds of type declarations. -/
inductive TypeKind where
  | ofClass
  | ofInterface
deriving DecidableEq, Repr

/-- The word that introduces a declaration of the kind. -/
def TypeKind.keyword : TypeKind → String
  | .ofClass => "class"
  | .ofInterface => "interface"

/-- `extends A` or `implements A, B<T>`. -/
structure TypeClause where
  id : NodeId
  lead : Trivia
  types : List (Padded TypeName)

mutual

/-- A member of a type. -/
inductive Member where
  | field (var : Variable)
  | method (method : Method)
  | type (decl : TypeDecl)

/-- A class or an interface. -/
structure TypeDecl where
  id : NodeId
  lead : Trivia
  modifiers : List Ident
  /-- The trivia in front of `class` or `interface`. -/
  kindLead : Trivia
  kind : TypeKind
  name : Ident
  typeParams : Option TypeArguments
  extending : Option TypeClause
  implementing : Option TypeClause
  body : TypeBody

/-- The members of a type between braces. -/
structure TypeBody where
  id : NodeId
  lead : Trivia
  members : List Member
  close : Trivia

end

namespace TypeDecl

/-- The superclass of a class that extends exactly one type. -/
def superclass? (d : TypeDecl) : Option TypeName :=
  match d.kind, d.extending with
  | .ofClass, some ⟨_, _, [single]⟩ => some single.elem
  | _, _ => none

/-- The class with another superclass, provided that it extends exactly one type. -/
def withSuperclass? (d : TypeDecl) (superclass : TypeName) : Option TypeDecl :=
  match d.kind, d.extending with
  | .ofClass, some ⟨id, lead, [single]⟩ =>
    some { d with extending := some ⟨id, lead, [{ single with elem := superclass }]⟩ }
  | _, _ => none

end TypeDecl

/-! ### Modules -/

/-- `package com.example;` -/
structure Package where
  id : NodeId
  lead : Trivia
  nameLead : Trivia
  name : String
  semi : Trivia
deriving DecidableEq, Repr

/-- `import com.example.Type;`, `import com.example.*;` or `import static com.example.Type.MAX;` -/
structure Import where
  id : NodeId
  lead : Trivia
  /-- The trivia in front of `static`, for a static import. -/
  staticLead : Option Trivia
  nameLead : Trivia
  /-- The name without a trailing `.*`. -/
  name : String
  wildcard : Bool
  semi : Trivia
deriving DecidableEq, Repr

namespace Import

/-- The import of a single type after `lead`, with no trivia but one space in front of its name. -/
def single (id : NodeId) (lead : Trivia) (name : String) : Import :=
  { id, lead, staticLead := none, nameLead := " ", name, wildcard := false, semi := "" }

/-- The import names a member of a type. -/
def isStatic (i : Import) : Bool := i.staticLead.isSome

/-- The import names one type. -/
def isSingleType (i : Import) : Bool := !i.isStatic && !i.wildcard

/-- The simple name that the import binds; one on demand binds none. -/
def simpleName? (i : Import) : Option String :=
  if i.wildcard then none else some (Name.simple i.name)

end Import

/-- A source module. -/
structure Module where
  id : NodeId
  package : Option Package
  imports : List Import
  types : List TypeDecl
  /-- The trivia at the end of the file. -/
  eof : Trivia
  /-- The first number that no node has. -/
  nextId : NodeId

namespace Module

/-- The name of the package. -/
def packageName? (m : Module) : Option String := m.package.map (·.name)

/-- The imports of single types, in source order. -/
def typeImports (m : Module) : List Import := m.imports.filter Import.isSingleType

/-- The module with its next number raised to `nextId`, and never lowered. -/
def raiseNextId (m : Module) (nextId : NodeId) : Module := { m with nextId := max m.nextId nextId }

end Module

end Migration
