import Migration.Traversal.Outline

/-!
# Changing a module

Hooks are asked about five kinds of nodes and may replace each of them. The nodes below are then
changed in turn, those of the replacement where there is one; the replacement itself is not asked
about again. A traversal gives nothing (`none`) for a part in which no hook replaced anything, so
that whoever holds the part can keep it.

Because the traversal goes on inside replacements, it may have no end. It is therefore carried out
to a given depth, counted in nodes of one kind inside each other, and a traversal that goes deeper
has no result at all. How deep the traversal may go has no other effect on the result.
-/

namespace Migration

/-- A traversal with a state: no result when it goes too deep. -/
abbrev Pass (σ : Type) (α : Type) := StateT σ Option α

/-- What to do at the nodes that can be replaced. Each hook gives the replacement, if any. -/
structure Hooks (σ : Type) where
  typeDecl : TypeDecl → σ → Option TypeDecl × σ
  typeName : TypeName → σ → Option TypeName × σ
  nameExpr : Ident → σ → Option Expr × σ
  access : FieldAccess → σ → Option Expr × σ
  call : MethodCall → σ → Option Expr × σ

/-- The hooks that replace nothing. -/
def Hooks.none {σ : Type} : Hooks σ where
  typeDecl _ s := (.none, s)
  typeName _ s := (.none, s)
  nameExpr _ s := (.none, s)
  access _ s := (.none, s)
  call _ s := (.none, s)

namespace Pass

/-! ### Parts that are kept or changed -/

/-- Ask a hook. -/
def ask {σ α : Type} (hook : σ → Option α × σ) : Pass σ (Option α) := fun s => some (hook s)

/-- Change each item of a list; nothing when no item was changed. -/
def changeEach {m : Type → Type} [Monad m] {α : Type} (f : α → m (Option α)) :
    List α → m (Option (List α))
  | [] => pure none
  | x :: xs => do
    let y ← f x
    let ys ← changeEach f xs
    return if y.isNone && ys.isNone then none else some (y.getD x :: ys.getD xs)

/-- Change each item of a comma-separated list. -/
def changeItems {σ α : Type} (f : α → Pass σ (Option α)) :
    List (Padded α) → Pass σ (Option (List (Padded α))) :=
  changeEach fun p => do return (← f p.elem).map fun elem => { p with elem }

/-- Change a list between brackets. -/
def changeListing {σ α : Type} (f : α → Pass σ (Option α)) (l : Listing α) :
    Pass σ (Option (Listing α)) := do
  return (← changeItems f l.items).map fun items => { l with items }

/-- Change a part that may be missing. -/
def changeOption {σ α : Type} (f : α → Pass σ (Option α)) :
    Option α → Pass σ (Option (Option α))
  | none => pure none
  | some a => do return (← f a).map some

/-- Ask about a node, then change what is below it or below its replacement. -/
def changeNode {σ α : Type} (node : α) (replaced : Option α)
    (below : α → Pass σ (Option α)) : Pass σ (Option α) := do
  return (← below (replaced.getD node)).or replaced

/-- The `n`-th approximation of a traversal described in terms of itself: it does not go deeper. -/
def approx {σ α : Type} (F : (α → Pass σ (Option α)) → α → Pass σ (Option α)) :
    Nat → α → Pass σ (Option α)
  | 0, _ => fun _ => none
  | n + 1, a => F (approx F n) a

/-! ### Types -/

section

variable {σ : Type} (h : Hooks σ) (depth : Nat)

def typeArgumentsOf (type : TypeName → Pass σ (Option TypeName)) (a : TypeArguments) :
    Pass σ (Option TypeArguments) := do
  return (← changeListing type a.list).map fun list => { a with list }

def typeNameOf (self : TypeName → Pass σ (Option TypeName)) (t : TypeName) :
    Pass σ (Option TypeName) := do
  let replaced ← ask (h.typeName t)
  changeNode t replaced fun t => do
    return (← changeOption (typeArgumentsOf self) t.args).map t.withArgs

def typeName : TypeName → Pass σ (Option TypeName) := approx (typeNameOf h) depth

def typeArguments : TypeArguments → Pass σ (Option TypeArguments) :=
  typeArgumentsOf (typeName h depth)

def typeClause (c : TypeClause) : Pass σ (Option TypeClause) := do
  return (← changeItems (typeName h depth) c.types).map fun types => { c with types }

/-! ### Expressions -/

/-- The expressions and types directly below an expression. -/
def belowExpr (self : Expr → Pass σ (Option Expr)) : Expr → Pass σ (Option Expr)
  | .name _ => pure none
  | .literal _ => pure none
  | .access a => do
    return (← self a.target).map fun target => .access { a with target }
  | .call c => do
    let target ← changeOption self c.target
    let args ← changeListing self c.args
    return if target.isNone && args.isNone then none
      else some (.call { c with target := target.getD c.target, args := args.getD c.args })
  | .create c => do
    let type ← typeName h depth c.type
    let args ← changeListing self c.args
    return if type.isNone && args.isNone then none
      else some (.create { c with type := type.getD c.type, args := args.getD c.args })
  | .binary b => do
    let left ← self b.left
    let right ← self b.right
    return if left.isNone && right.isNone then none
      else some (.binary { b with left := left.getD b.left, right := right.getD b.right })
  | .parens p => do
    return (← self p.inner).map fun inner => .parens { p with inner }

/-- Ask the hook for the kind of an expression. -/
def askExpr : Expr → Pass σ (Option Expr)
  | .name ident => ask (h.nameExpr ident)
  | .access a => ask (h.access a)
  | .call c => ask (h.call c)
  | _ => pure none

def exprOf (self : Expr → Pass σ (Option Expr)) (e : Expr) : Pass σ (Option Expr) := do
  let replaced ← askExpr h e
  changeNode e replaced (belowExpr h depth self)

def expr : Expr → Pass σ (Option Expr) := approx (exprOf h depth) depth

/-! ### Statements -/

def initializer (i : Initializer) : Pass σ (Option Initializer) := do
  return (← expr h depth i.value).map fun value => { i with value }

def varDecl (v : Variable) : Pass σ (Option Variable) := do
  let type ← typeName h depth v.type
  let value ← changeOption (initializer h depth) v.value
  return if type.isNone && value.isNone then none
    else some { v with type := type.getD v.type, value := value.getD v.value }

def stmtOf (self : Block → Pass σ (Option Block)) : Stmt → Pass σ (Option Stmt)
  | .expr s => do
    return (← expr h depth s.expr).map fun expr => .expr { s with expr }
  | .localVar v => do
    return (← varDecl h depth v).map .localVar
  | .ret s => do
    return (← changeOption (expr h depth) s.value).map fun value => .ret { s with value }
  | .block b => do
    return (← self b).map .block

def blockOf (self : Block → Pass σ (Option Block)) (b : Block) : Pass σ (Option Block) := do
  return (← changeEach (stmtOf h depth self) b.statements).map fun statements =>
    { b with statements }

def block : Block → Pass σ (Option Block) := approx (blockOf h depth) depth

/-! ### Declarations -/

def param (p : Param) : Pass σ (Option Param) := do
  return (← typeName h depth p.type).map fun type => { p with type }

def methodBody : MethodBody → Pass σ (Option MethodBody)
  | .block b => do return (← block h depth b).map .block
  | .absent _ => pure none

def method (m : Method) : Pass σ (Option Method) := do
  let returnType ← changeOption (typeName h depth) m.returnType
  let params ← changeListing (param h depth) m.params
  let body ← methodBody h depth m.body
  return if returnType.isNone && params.isNone && body.isNone then none
    else some { m with
      returnType := returnType.getD m.returnType
      params := params.getD m.params
      body := body.getD m.body }

def memberOf (self : TypeDecl → Pass σ (Option TypeDecl)) : Member → Pass σ (Option Member)
  | .field v => do return (← varDecl h depth v).map .field
  | .method m => do return (← method h depth m).map .method
  | .type d => do return (← self d).map .type

def typeBodyOf (self : TypeDecl → Pass σ (Option TypeDecl)) (b : TypeBody) :
    Pass σ (Option TypeBody) := do
  return (← changeEach (memberOf h depth self) b.members).map fun members => { b with members }

/-- What is below a type declaration: type parameters, clauses, members. -/
def belowTypeDecl (self : TypeDecl → Pass σ (Option TypeDecl)) (d : TypeDecl) :
    Pass σ (Option TypeDecl) := do
  let typeParams ← changeOption (typeArguments h depth) d.typeParams
  let extending ← changeOption (typeClause h depth) d.extending
  let implementing ← changeOption (typeClause h depth) d.implementing
  let body ← typeBodyOf h depth self d.body
  return if typeParams.isNone && extending.isNone && implementing.isNone && body.isNone then none
    else some { d with
      typeParams := typeParams.getD d.typeParams
      extending := extending.getD d.extending
      implementing := implementing.getD d.implementing
      body := body.getD d.body }

def typeDeclOf (self : TypeDecl → Pass σ (Option TypeDecl)) (d : TypeDecl) :
    Pass σ (Option TypeDecl) := do
  let replaced ← ask (h.typeDecl d)
  changeNode d replaced (belowTypeDecl h depth self)

def typeDecl : TypeDecl → Pass σ (Option TypeDecl) := approx (typeDeclOf h depth) depth

end

end Pass

namespace Outline

mutual

/-- How many nodes are inside each other at most. -/
def height : Outline → Nat
  | .node _ below => heightAll below + 1
termination_by structural o => o

/-- The greatest height of several outlines. -/
def heightAll : List Outline → Nat
  | [] => 0
  | o :: os => max (height o) (heightAll os)
termination_by structural os => os

end

end Outline

namespace Module

/-- A depth to which every traversal goes that nests no replacements. -/
def height (m : Module) : Nat := m.outline.height + 1

/-- Change the types of a module; its imports are left alone. Nothing for the module when no hook
replaced anything, and no result at all when the traversal goes deeper than `depth`. -/
def transform {σ : Type} (m : Module) (h : Hooks σ) (depth : Nat) : Pass σ (Option Module) := do
  return (← Pass.changeEach (Pass.typeDecl h depth) m.types).map fun types => { m with types }

end Module

end Migration
