import Migration.Json.Basic
import Migration.Tree.Basic

/-!
# Trees as JSON values

A node is an object with one field for each of its parts, in a fixed order. A missing part is
`null`, but for the two full names known from elsewhere (`resolved` of a type, `owner` of an
access), whose fields are left out. Where a part is one of several kinds of nodes, it is an object
with a single field named for the kind.
-/

namespace Migration

namespace Json

/-- The number of a node. -/
def ofId (id : NodeId) : Json := .nat id.toNat

/-- A part that may be missing. -/
def ofOption {α : Type} (part : α → Json) : Option α → Json
  | none => .null
  | some a => part a

/-- A list of parts. -/
def ofList {α : Type} (part : α → Json) (xs : List α) : Json := .arr (xs.map part)

/-- A field that is left out when it has no value. -/
def optField (key : String) : Option String → List (String × Json)
  | none => []
  | some s => [(key, .str s)]

/-- An item of a comma-separated list. -/
def ofPadded (elem : Json) (after : Trivia) : Json := .obj [("elem", elem), ("after", .str after)]

/-- A node of one kind out of several. -/
def tagged (kind : String) (node : Json) : Json := .obj [(kind, node)]

end Json

open Json

def Ident.toJson (i : Ident) : Json :=
  .obj [("id", ofId i.id), ("prefix", .str i.lead), ("name", .str i.name)]

/-! ### Types -/

mutual

def TypeName.toJson : TypeName → Json
  | ⟨id, lead, name, none, resolved⟩ =>
    .obj ([("id", ofId id), ("prefix", .str lead), ("name", .str name), ("type_args", .null)]
      ++ optField "resolved" resolved)
  | ⟨id, lead, name, some args, resolved⟩ =>
    .obj ([("id", ofId id), ("prefix", .str lead), ("name", .str name), ("type_args", args.toJson)]
      ++ optField "resolved" resolved)
termination_by structural t => t

def TypeArguments.toJson : TypeArguments → Json
  | ⟨id, ⟨lead, items, close⟩⟩ =>
    .obj [("id", ofId id), ("prefix", .str lead), ("args", .arr (TypeName.toJsonAll items)),
      ("close", .str close)]
termination_by structural a => a

def TypeName.toJsonAll : List (Padded TypeName) → List Json
  | [] => []
  | ⟨t, after⟩ :: rest => ofPadded t.toJson after :: TypeName.toJsonAll rest
termination_by structural ps => ps

end

/-! ### Expressions -/

def Literal.toJson (l : Literal) : Json :=
  .obj [("id", ofId l.id), ("prefix", .str l.lead), ("text", .str l.text)]

/-- Arguments, the items of which are values already. -/
def Json.ofArguments (lead : Trivia) (items : List Json) (close : Trivia) : Json :=
  .obj [("prefix", .str lead), ("args", .arr items), ("close", .str close)]

mutual

def Expr.toJson : Expr → Json
  | .name ident => tagged "Name" ident.toJson
  | .access ⟨id, target, dot, member, owner⟩ =>
    tagged "FieldAccess" (.obj ([("id", ofId id), ("target", target.toJson), ("dot", .str dot),
      ("name", member.toJson)] ++ optField "owner" owner))
  | .call ⟨id, none, dot, member, ⟨opened, items, closed⟩⟩ =>
    tagged "MethodCall" (.obj [("id", ofId id), ("target", .null), ("dot", .str dot),
      ("name", member.toJson), ("args", ofArguments opened (Expr.toJsonAll items) closed)])
  | .call ⟨id, some target, dot, member, ⟨opened, items, closed⟩⟩ =>
    tagged "MethodCall" (.obj [("id", ofId id), ("target", target.toJson), ("dot", .str dot),
      ("name", member.toJson), ("args", ofArguments opened (Expr.toJsonAll items) closed)])
  | .create ⟨id, lead, type, ⟨opened, items, closed⟩⟩ =>
    tagged "New" (.obj [("id", ofId id), ("prefix", .str lead), ("ty", type.toJson),
      ("args", ofArguments opened (Expr.toJsonAll items) closed)])
  | .literal l => tagged "Literal" l.toJson
  | .binary ⟨id, left, opLead, op, right⟩ =>
    tagged "Binary" (.obj [("id", ofId id), ("left", left.toJson), ("op_prefix", .str opLead),
      ("op", .str op), ("right", right.toJson)])
  | .parens ⟨id, lead, inner, close⟩ =>
    tagged "Parens" (.obj [("id", ofId id), ("prefix", .str lead), ("inner", inner.toJson),
      ("close", .str close)])
termination_by structural e => e

def Expr.toJsonAll : List (Padded Expr) → List Json
  | [] => []
  | ⟨e, after⟩ :: rest => ofPadded e.toJson after :: Expr.toJsonAll rest
termination_by structural ps => ps

end

/-! ### Statements -/

def Initializer.toJson (i : Initializer) : Json :=
  .obj [("prefix", .str i.lead), ("value", i.value.toJson)]

def Variable.toJson (v : Variable) : Json :=
  .obj [("id", ofId v.id), ("prefix", .str v.lead), ("modifiers", ofList Ident.toJson v.modifiers),
    ("ty", v.type.toJson), ("name", v.name.toJson), ("init", ofOption Initializer.toJson v.value),
    ("semi", .str v.semi)]

def ExprStmt.toJson (s : ExprStmt) : Json :=
  .obj [("id", ofId s.id), ("prefix", .str s.lead), ("expr", s.expr.toJson), ("semi", .str s.semi)]

def Return.toJson (s : Return) : Json :=
  .obj [("id", ofId s.id), ("prefix", .str s.lead), ("value", ofOption Expr.toJson s.value),
    ("semi", .str s.semi)]

mutual

def Stmt.toJson : Stmt → Json
  | .expr s => tagged "Expr" s.toJson
  | .localVar v => tagged "LocalVar" v.toJson
  | .ret s => tagged "Return" s.toJson
  | .block b => tagged "Block" b.toJson
termination_by structural s => s

def Block.toJson : Block → Json
  | ⟨id, lead, statements, close⟩ =>
    .obj [("id", ofId id), ("prefix", .str lead), ("statements", .arr (Stmt.toJsonAll statements)),
      ("end", .str close)]
termination_by structural b => b

def Stmt.toJsonAll : List Stmt → List Json
  | [] => []
  | s :: rest => s.toJson :: Stmt.toJsonAll rest
termination_by structural ss => ss

end

/-! ### Declarations -/

def Param.toJson (p : Param) : Json :=
  .obj [("id", ofId p.id), ("prefix", .str p.lead), ("modifiers", ofList Ident.toJson p.modifiers),
    ("ty", p.type.toJson), ("name", p.name.toJson)]

def Padded.paramToJson (p : Padded Param) : Json := ofPadded p.elem.toJson p.after

def Json.ofParams (l : Listing Param) : Json :=
  .obj [("prefix", .str l.lead), ("params", ofList Padded.paramToJson l.items),
    ("close", .str l.close)]

def MethodBody.toJson : MethodBody → Json
  | .block b => tagged "Block" b.toJson
  | .absent semi => tagged "Abstract" (.str semi)

def Method.toJson (m : Method) : Json :=
  .obj [("id", ofId m.id), ("prefix", .str m.lead), ("modifiers", ofList Ident.toJson m.modifiers),
    ("return_type", ofOption TypeName.toJson m.returnType), ("name", m.name.toJson),
    ("params", ofParams m.params), ("body", m.body.toJson)]

def TypeClause.toJson (c : TypeClause) : Json :=
  .obj [("id", ofId c.id), ("prefix", .str c.lead), ("types", .arr (TypeName.toJsonAll c.types))]

mutual

def Member.toJson : Member → Json
  | .field v => tagged "Field" v.toJson
  | .method m => tagged "Method" m.toJson
  | .type d => tagged "Class" d.toJson
termination_by structural m => m

def TypeDecl.toJson : TypeDecl → Json
  | ⟨id, lead, modifiers, kindLead, kind, name, typeParams, extending, implementing, body⟩ =>
    .obj [("id", ofId id), ("prefix", .str lead), ("modifiers", ofList Ident.toJson modifiers),
      ("kind_prefix", .str kindLead), ("kind", .str kind.keyword), ("name", name.toJson),
      ("type_params", ofOption TypeArguments.toJson typeParams),
      ("extends", ofOption TypeClause.toJson extending),
      ("implements", ofOption TypeClause.toJson implementing), ("body", body.toJson)]
termination_by structural d => d

def TypeBody.toJson : TypeBody → Json
  | ⟨id, lead, members, close⟩ =>
    .obj [("id", ofId id), ("prefix", .str lead), ("members", .arr (Member.toJsonAll members)),
      ("end", .str close)]
termination_by structural b => b

def Member.toJsonAll : List Member → List Json
  | [] => []
  | m :: rest => m.toJson :: Member.toJsonAll rest
termination_by structural ms => ms

end

/-! ### Modules -/

def Package.toJson (p : Package) : Json :=
  .obj [("id", ofId p.id), ("prefix", .str p.lead), ("name_prefix", .str p.nameLead),
    ("name", .str p.name), ("semi", .str p.semi)]

def Import.toJson (i : Import) : Json :=
  .obj [("id", ofId i.id), ("prefix", .str i.lead), ("static_prefix", optStr i.staticLead),
    ("name_prefix", .str i.nameLead), ("name", .str i.name), ("wildcard", .bool i.wildcard),
    ("semi", .str i.semi)]

def Module.toJson (m : Module) : Json :=
  .obj [("id", ofId m.id), ("package", ofOption Package.toJson m.package),
    ("imports", ofList Import.toJson m.imports), ("types", ofList TypeDecl.toJson m.types),
    ("eof", .str m.eof), ("next_id", ofId m.nextId)]

/-- Modules are equal when their JSON values are. -/
instance : BEq Module := ⟨fun a b => a.toJson == b.toJson⟩

end Migration
