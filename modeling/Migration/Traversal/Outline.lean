import Migration.Tree.Basic

/-!
# The outline of a module

Thirteen kinds of nodes can be visited. The outline of a module is the tree of its visitable nodes,
each with those directly below it in the order in which they are visited. An expression appears
twice in a row: once as an expression, and below it once more as what it is, when it is a name, an
access, a call or a creation.
-/

namespace Migration

/-- A node that can be visited. -/
inductive Node where
  | module (m : Module)
  | importDecl (i : Import)
  | typeDecl (d : TypeDecl)
  | field (v : Variable)
  | method (m : Method)
  | block (b : Block)
  | typeName (t : TypeName)
  | marker (i : Ident)
  | expr (e : Expr)
  | nameExpr (i : Ident)
  | access (a : FieldAccess)
  | call (c : MethodCall)
  | creation (c : Creation)

/-- A visitable node with the visitable nodes below it. -/
inductive Outline where
  | node (n : Node) (below : List Outline)

namespace Outline

/-- A node with nothing below it. -/
def leaf (n : Node) : Outline := .node n []

mutual

/-- All nodes, each before those below it. -/
def preorder : Outline → List Node
  | .node n below => n :: preorderAll below
termination_by structural o => o

/-- All nodes of several outlines. -/
def preorderAll : List Outline → List Node
  | [] => []
  | o :: os => preorder o ++ preorderAll os
termination_by structural os => os

end

end Outline

/-- The annotations among modifiers. -/
def outlineMarkers (modifiers : List Ident) : List Outline :=
  (modifiers.filter Ident.isMarker).map fun i => .leaf (.marker i)

/-! ### Types -/

mutual

def TypeName.outline : TypeName → Outline
  | ⟨id, lead, name, none, resolved⟩ => .leaf (.typeName ⟨id, lead, name, none, resolved⟩)
  | ⟨id, lead, name, some args, resolved⟩ =>
    .node (.typeName ⟨id, lead, name, some args, resolved⟩) args.outline
termination_by structural t => t

def TypeArguments.outline : TypeArguments → List Outline
  | ⟨_, ⟨_, items, _⟩⟩ => TypeName.outlineAll items
termination_by structural a => a

def TypeName.outlineAll : List (Padded TypeName) → List Outline
  | [] => []
  | ⟨t, _⟩ :: rest => t.outline :: TypeName.outlineAll rest
termination_by structural ps => ps

end

/-! ### Expressions -/

mutual

def Expr.outline : Expr → Outline
  | .name ident => .node (.expr (.name ident)) [.leaf (.nameExpr ident)]
  | .access ⟨id, target, dot, member, owner⟩ =>
    .node (.expr (.access ⟨id, target, dot, member, owner⟩))
      [.node (.access ⟨id, target, dot, member, owner⟩) [target.outline]]
  | .call ⟨id, none, dot, member, ⟨opened, items, closed⟩⟩ =>
    .node (.expr (.call ⟨id, none, dot, member, ⟨opened, items, closed⟩⟩))
      [.node (.call ⟨id, none, dot, member, ⟨opened, items, closed⟩⟩) (Expr.outlineAll items)]
  | .call ⟨id, some target, dot, member, ⟨opened, items, closed⟩⟩ =>
    .node (.expr (.call ⟨id, some target, dot, member, ⟨opened, items, closed⟩⟩))
      [.node (.call ⟨id, some target, dot, member, ⟨opened, items, closed⟩⟩)
        (target.outline :: Expr.outlineAll items)]
  | .create ⟨id, lead, type, ⟨opened, items, closed⟩⟩ =>
    .node (.expr (.create ⟨id, lead, type, ⟨opened, items, closed⟩⟩))
      [.node (.creation ⟨id, lead, type, ⟨opened, items, closed⟩⟩)
        (type.outline :: Expr.outlineAll items)]
  | .literal l => .leaf (.expr (.literal l))
  | .binary ⟨id, left, opLead, op, right⟩ =>
    .node (.expr (.binary ⟨id, left, opLead, op, right⟩)) [left.outline, right.outline]
  | .parens ⟨id, lead, inner, close⟩ =>
    .node (.expr (.parens ⟨id, lead, inner, close⟩)) [inner.outline]
termination_by structural e => e

def Expr.outlineAll : List (Padded Expr) → List Outline
  | [] => []
  | ⟨e, _⟩ :: rest => e.outline :: Expr.outlineAll rest
termination_by structural ps => ps

end

/-! ### Statements and declarations -/

/-- The nodes of a variable: its annotations, its type and its value. -/
def Variable.outlines (v : Variable) : List Outline :=
  outlineMarkers v.modifiers ++ v.type.outline :: (v.value.map (·.value.outline)).toList

mutual

def Stmt.outlines : Stmt → List Outline
  | .expr s => [s.expr.outline]
  | .localVar v => v.outlines
  | .ret s => (s.value.map Expr.outline).toList
  | .block b => [b.outline]
termination_by structural s => s

def Block.outline : Block → Outline
  | ⟨id, lead, statements, close⟩ =>
    .node (.block ⟨id, lead, statements, close⟩) (Stmt.outlineAll statements)
termination_by structural b => b

def Stmt.outlineAll : List Stmt → List Outline
  | [] => []
  | s :: rest => s.outlines ++ Stmt.outlineAll rest
termination_by structural ss => ss

end

/-- The nodes of a parameter: its annotations and its type. -/
def Param.outlines (p : Param) : List Outline :=
  outlineMarkers p.modifiers ++ [p.type.outline]

def MethodBody.outlines : MethodBody → List Outline
  | .block b => [b.outline]
  | .absent _ => []

def Method.outline (m : Method) : Outline :=
  .node (.method m) (outlineMarkers m.modifiers ++ (m.returnType.map TypeName.outline).toList
    ++ m.params.items.flatMap (·.elem.outlines) ++ m.body.outlines)

def TypeClause.outlines (c : TypeClause) : List Outline := TypeName.outlineAll c.types

/-- The nodes of a type declaration in front of its members. -/
def outlineHeader (modifiers : List Ident) (typeParams : Option TypeArguments)
    (extending implementing : Option TypeClause) : List Outline :=
  outlineMarkers modifiers ++ typeParams.toList.flatMap TypeArguments.outline
    ++ extending.toList.flatMap TypeClause.outlines
    ++ implementing.toList.flatMap TypeClause.outlines

mutual

def Member.outline : Member → Outline
  | .field v => .node (.field v) v.outlines
  | .method m => m.outline
  | .type d => d.outline
termination_by structural m => m

def TypeDecl.outline : TypeDecl → Outline
  | ⟨id, lead, modifiers, kindLead, kind, name, typeParams, extending, implementing, body⟩ =>
    .node (.typeDecl
        ⟨id, lead, modifiers, kindLead, kind, name, typeParams, extending, implementing, body⟩)
      (outlineHeader modifiers typeParams extending implementing ++ body.outlines)
termination_by structural d => d

def TypeBody.outlines : TypeBody → List Outline
  | ⟨_, _, members, _⟩ => Member.outlineAll members
termination_by structural b => b

def Member.outlineAll : List Member → List Outline
  | [] => []
  | m :: rest => m.outline :: Member.outlineAll rest
termination_by structural ms => ms

end

/-- The outline of a module: its imports, then its types. -/
def Module.outline (m : Module) : Outline :=
  .node (.module m) (m.imports.map (fun i => .leaf (.importDecl i)) ++ m.types.map TypeDecl.outline)

end Migration
