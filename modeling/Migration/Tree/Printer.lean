import Migration.Tree.Basic

/-!
# Trees as text

Every node is written as its trivia and its tokens in order, with nothing added. The functions on
lists at the end of each mutual block write the items of a list; that they do so item by item is
what `printItems` says.
-/

namespace Migration

/-- Items separated by commas, each comma after its own trivia. -/
def printItems {α : Type} (item : α → String) : List (Padded α) → String
  | [] => ""
  | [p] => item p.elem
  | p :: q :: rest => item p.elem ++ p.after ++ "," ++ printItems item (q :: rest)

/-- A comma-separated list between its brackets. -/
def Listing.print {α : Type} (opening closing : String) (item : α → String)
    (l : Listing α) : String :=
  l.lead ++ opening ++ printItems item l.items ++ l.close ++ closing

def Ident.print (i : Ident) : String := i.lead ++ i.name

/-- Modifiers, one after the other. -/
def printModifiers (modifiers : List Ident) : String := String.join (modifiers.map Ident.print)

/-! ### Types -/

mutual

def TypeName.print : TypeName → String
  | ⟨_, lead, name, none, _⟩ => lead ++ name
  | ⟨_, lead, name, some args, _⟩ => lead ++ name ++ args.print
termination_by structural t => t

def TypeArguments.print : TypeArguments → String
  | ⟨_, ⟨lead, items, close⟩⟩ => lead ++ "<" ++ TypeName.printAll items ++ close ++ ">"
termination_by structural a => a

def TypeName.printAll : List (Padded TypeName) → String
  | [] => ""
  | [⟨t, _⟩] => t.print
  | ⟨t, after⟩ :: q :: rest => t.print ++ after ++ "," ++ TypeName.printAll (q :: rest)
termination_by structural ps => ps

end

theorem TypeName.printAll_eq (ps : List (Padded TypeName)) :
    TypeName.printAll ps = printItems TypeName.print ps := by
  induction ps with
  | nil => rfl
  | cons p rest ih =>
    cases rest with
    | nil => rfl
    | cons q rest => simp only [TypeName.printAll, printItems, ih]

/-! ### Expressions -/

mutual

def Expr.print : Expr → String
  | .name ident => ident.print
  | .access ⟨_, target, dot, member, _⟩ => target.print ++ dot ++ "." ++ member.print
  | .call ⟨_, none, _, member, ⟨opened, items, closed⟩⟩ =>
    member.print ++ (opened ++ "(" ++ Expr.printAll items ++ closed ++ ")")
  | .call ⟨_, some target, dot, member, ⟨opened, items, closed⟩⟩ =>
    target.print ++ dot ++ "." ++ member.print
      ++ (opened ++ "(" ++ Expr.printAll items ++ closed ++ ")")
  | .create ⟨_, lead, type, ⟨opened, items, closed⟩⟩ =>
    lead ++ "new" ++ type.print ++ (opened ++ "(" ++ Expr.printAll items ++ closed ++ ")")
  | .literal l => l.lead ++ l.text
  | .binary ⟨_, left, opLead, op, right⟩ => left.print ++ opLead ++ op ++ right.print
  | .parens ⟨_, lead, inner, close⟩ => lead ++ "(" ++ inner.print ++ close ++ ")"
termination_by structural e => e

def Expr.printAll : List (Padded Expr) → String
  | [] => ""
  | [⟨e, _⟩] => e.print
  | ⟨e, after⟩ :: q :: rest => e.print ++ after ++ "," ++ Expr.printAll (q :: rest)
termination_by structural ps => ps

end

theorem Expr.printAll_eq (ps : List (Padded Expr)) :
    Expr.printAll ps = printItems Expr.print ps := by
  induction ps with
  | nil => rfl
  | cons p rest ih =>
    cases rest with
    | nil => rfl
    | cons q rest => simp only [Expr.printAll, printItems, ih]

/-! ### Statements -/

def Initializer.print (i : Initializer) : String := i.lead ++ "=" ++ i.value.print

/-- A part that may be missing. -/
def printOption {α : Type} (part : α → String) : Option α → String
  | none => ""
  | some a => part a

def Variable.print (v : Variable) : String :=
  v.lead ++ printModifiers v.modifiers ++ v.type.print ++ v.name.print
    ++ printOption Initializer.print v.value ++ v.semi ++ ";"

def ExprStmt.print (s : ExprStmt) : String := s.lead ++ s.expr.print ++ s.semi ++ ";"

def Return.print (s : Return) : String :=
  s.lead ++ "return" ++ printOption Expr.print s.value ++ s.semi ++ ";"

mutual

def Stmt.print : Stmt → String
  | .expr stmt => stmt.print
  | .localVar var => var.print
  | .ret stmt => stmt.print
  | .block b => b.print
termination_by structural s => s

def Block.print : Block → String
  | ⟨_, lead, statements, close⟩ => lead ++ "\x7b" ++ Stmt.printAll statements ++ close ++ "\x7d"
termination_by structural b => b

def Stmt.printAll : List Stmt → String
  | [] => ""
  | s :: rest => s.print ++ Stmt.printAll rest
termination_by structural ss => ss

end

/-! ### Declarations -/

def Param.print (p : Param) : String :=
  p.lead ++ printModifiers p.modifiers ++ p.type.print ++ p.name.print

def MethodBody.print : MethodBody → String
  | .block b => b.print
  | .absent semi => semi ++ ";"

def Method.print (m : Method) : String :=
  m.lead ++ printModifiers m.modifiers ++ printOption TypeName.print m.returnType ++ m.name.print
    ++ m.params.print "(" ")" Param.print ++ m.body.print

/-- A clause after its keyword. -/
def TypeClause.print (keyword : String) (c : TypeClause) : String :=
  c.lead ++ keyword ++ printItems TypeName.print c.types

/-- A declaration up to its body. -/
def printHeader (lead : Trivia) (modifiers : List Ident) (kindLead : Trivia) (kind : TypeKind)
    (name : Ident) (typeParams : Option TypeArguments)
    (extending implementing : Option TypeClause) : String :=
  lead ++ printModifiers modifiers ++ kindLead ++ kind.keyword ++ name.print
    ++ printOption TypeArguments.print typeParams
    ++ printOption (TypeClause.print "extends") extending
    ++ printOption (TypeClause.print "implements") implementing

mutual

def Member.print : Member → String
  | .field var => var.print
  | .method m => m.print
  | .type decl => decl.print
termination_by structural m => m

def TypeDecl.print : TypeDecl → String
  | ⟨_, lead, modifiers, kindLead, kind, name, typeParams, extending, implementing, body⟩ =>
    printHeader lead modifiers kindLead kind name typeParams extending implementing ++ body.print
termination_by structural d => d

def TypeBody.print : TypeBody → String
  | ⟨_, lead, members, close⟩ => lead ++ "\x7b" ++ Member.printAll members ++ close ++ "\x7d"
termination_by structural b => b

def Member.printAll : List Member → String
  | [] => ""
  | m :: rest => m.print ++ Member.printAll rest
termination_by structural ms => ms

end

/-! ### Modules -/

def Package.print (p : Package) : String :=
  p.lead ++ "package" ++ p.nameLead ++ p.name ++ p.semi ++ ";"

def Import.print (i : Import) : String :=
  i.lead ++ "import" ++ printOption (· ++ "static") i.staticLead ++ i.nameLead ++ i.name
    ++ (if i.wildcard then ".*" else "") ++ i.semi ++ ";"

/-- The text of a module. -/
def Module.print (m : Module) : String :=
  printOption Package.print m.package ++ String.join (m.imports.map Import.print)
    ++ String.join (m.types.map TypeDecl.print) ++ m.eof

end Migration
