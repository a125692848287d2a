import Migration.Proofs.Text.Segments
import Migration.Proofs.Token.Scanning
import Migration.Tree.Printer

/-!
# Trees as rows of tokens

The tokens that a tree is written with, each with its trivia and at no place. Where a node takes the
trivia in front of a part, the part's first token gets it (`prependLead`).

The main statement of each section is that the printer writes exactly these tokens:
`Expr.toList_print`, `TypeDecl.toList_print` and so on up to `Module.toList_print`.
-/

namespace Migration

open Token (word symbol)

/-- The row with more trivia in front of its first token. -/
def prependLead (lead : Trivia) : List Token → List Token
  | [] => []
  | t :: ts => { t with lead := lead ++ t.lead } :: ts

theorem spell_prependLead (lead : Trivia) {ts : List Token} (h : ts ≠ []) :
    spell (prependLead lead ts) = lead.toList ++ spell ts := by
  cases ts with
  | nil => exact absurd rfl h
  | cons t ts => simp [prependLead]

theorem prependLead_empty (ts : List Token) : prependLead "" ts = ts := by
  cases ts with
  | nil => rfl
  | cons t ts => rw [prependLead, String.empty_append]

@[simp] theorem prependLead_eq_nil {lead : Trivia} {ts : List Token} :
    prependLead lead ts = [] ↔ ts = [] := by
  cases ts <;> simp [prependLead]

theorem prependLead_inj {lead : Trivia} {ts us : List Token} :
    prependLead lead ts = prependLead lead us ↔ ts = us := by
  refine ⟨fun h => ?_, congrArg _⟩
  cases ts with
  | nil => exact (prependLead_eq_nil.mp h.symm).symm
  | cons t ts =>
    cases us with
    | nil => cases h
    | cons u us =>
      obtain ⟨hhead, rfl⟩ := List.cons.inj h
      obtain ⟨_, _, _, _⟩ := t
      obtain ⟨_, _, _, _⟩ := u
      simpa using hhead

/-- Segments, each after a dot and without trivia. -/
def dotTokens (ss : List String) : List Token := ss.flatMap fun t => [symbol "" ".", word "" t]

/-- A row of segments divided by dots, with trivia only in front of the first. -/
def dottedTokens (lead : Trivia) : List String → List Token
  | [] => []
  | s :: ss => word lead s :: dotTokens ss

/-- What stands behind the name of an import on demand. -/
def wildcardTokens (wildcard : Bool) : List Token :=
  if wildcard then [symbol "" ".", symbol "" "*"] else []

/-- The tokens of a dotted name. -/
def nameTokens (lead : Trivia) (name : String) : List Token :=
  dottedTokens lead (Name.segments name)

theorem spell_dotTokens (ss : List String) :
    spell (dotTokens ss) = ss.flatMap fun t => '.' :: t.toList := by
  induction ss with
  | nil => rfl
  | cons s ss ih =>
    rw [dotTokens] at ih ⊢
    simp [List.flatMap_cons, ih]

theorem spell_nameTokens (lead : Trivia) (name : String) :
    spell (nameTokens lead name) = lead.toList ++ name.toList := by
  rw [nameTokens]
  cases h : Name.segments name with
  | nil => exact absurd h (Name.segments_ne_nil name)
  | cons s ss => rw [dottedTokens, spell_cons, spell_dotTokens, Name.toList_of_segments h]; rfl

/-- The tokens of items separated by commas, given those of an item. -/
def itemTokens {α : Type} (item : α → List Token) : List (Padded α) → List Token
  | [] => []
  | [p] => item p.elem
  | p :: q :: rest => item p.elem ++ symbol p.after "," :: itemTokens item (q :: rest)

/-- The tokens of a list between brackets. -/
def Listing.tokens {α : Type} (opening closing : String) (item : α → List Token)
    (l : Listing α) : List Token :=
  symbol l.lead opening :: itemTokens item l.items ++ [symbol l.close closing]

theorem toList_printItems {α : Type} {print : α → String} {tokens : α → List Token}
    {ps : List (Padded α)} (h : ∀ p ∈ ps, (print p.elem).toList = spell (tokens p.elem)) :
    (printItems print ps).toList = spell (itemTokens tokens ps) := by
  induction ps with
  | nil => rfl
  | cons p rest ih =>
    have hp := h p List.mem_cons_self
    cases rest with
    | nil => exact hp
    | cons q rest =>
      have hrest := ih fun x hx => h x (List.mem_cons_of_mem _ hx)
      simp [printItems, itemTokens, hp, hrest]

def Ident.tokens (i : Ident) : List Token := [word i.lead i.name]

theorem Ident.toList_print (i : Ident) : i.print.toList = spell i.tokens := by
  simp [Ident.print, Ident.tokens]

/-- The tokens of modifiers. -/
def modifierTokens (modifiers : List Ident) : List Token := modifiers.map fun i => word i.lead i.name

theorem toList_printModifiers (modifiers : List Ident) :
    (printModifiers modifiers).toList = spell (modifierTokens modifiers) := by
  rw [printModifiers, modifierTokens, String.toList_join, spell, List.flatMap_map, List.flatMap_map]
  simp [Ident.print]

/-- The tokens of a part that may be missing. -/
def optionTokens {α : Type} (part : α → List Token) : Option α → List Token
  | none => []
  | some a => part a

theorem toList_printOption {α : Type} {print : α → String} {tokens : α → List Token}
    {o : Option α} (h : ∀ a ∈ o, (print a).toList = spell (tokens a)) :
    (printOption print o).toList = spell (optionTokens tokens o) := by
  cases o with
  | none => rfl
  | some a => exact h a rfl

/-! ### Types -/

/-- The tokens of a type without its arguments. -/
def typeHeadTokens (lead : Trivia) (name : String) : List Token :=
  if name = "?" then [symbol lead "?"] else nameTokens lead name

theorem spell_typeHeadTokens (lead : Trivia) (name : String) :
    spell (typeHeadTokens lead name) = lead.toList ++ name.toList := by
  rw [typeHeadTokens]
  split
  · next h => subst h; simp
  · exact spell_nameTokens lead name

mutual

def TypeName.tokens : TypeName → List Token
  | ⟨_, lead, name, none, _⟩ => typeHeadTokens lead name
  | ⟨_, lead, name, some args, _⟩ => typeHeadTokens lead name ++ args.tokens
termination_by structural t => t

def TypeArguments.tokens : TypeArguments → List Token
  | ⟨_, ⟨lead, items, close⟩⟩ =>
    symbol lead "<" :: TypeName.tokensAll items ++ [symbol close ">"]
termination_by structural a => a

def TypeName.tokensAll : List (Padded TypeName) → List Token
  | [] => []
  | [⟨t, _⟩] => t.tokens
  | ⟨t, after⟩ :: q :: rest => t.tokens ++ symbol after "," :: TypeName.tokensAll (q :: rest)
termination_by structural ps => ps

end

theorem TypeName.tokensAll_eq (ps : List (Padded TypeName)) :
    TypeName.tokensAll ps = itemTokens TypeName.tokens ps := by
  induction ps with
  | nil => rfl
  | cons p rest ih =>
    cases rest with
    | nil => rfl
    | cons q rest => simp only [TypeName.tokensAll, itemTokens, ih]

theorem TypeArguments.tokens_eq (id : NodeId) (l : Listing TypeName) :
    (TypeArguments.mk id l).tokens = l.tokens "<" ">" TypeName.tokens := by
  obtain ⟨lead, items, close⟩ := l
  rw [TypeArguments.tokens, TypeName.tokensAll_eq, Listing.tokens]

theorem TypeName.tokens_eq (t : TypeName) :
    t.tokens = typeHeadTokens t.lead t.name ++ optionTokens TypeArguments.tokens t.args := by
  obtain ⟨id, lead, name, args, resolved⟩ := t
  cases args with
  | none => rw [TypeName.tokens, optionTokens, List.append_nil]
  | some args => rw [TypeName.tokens, optionTokens]

mutual

theorem TypeName.toList_print : ∀ t : TypeName, t.print.toList = spell t.tokens
  | ⟨_, lead, name, none, _⟩ => by
    simp [TypeName.print, TypeName.tokens, spell_typeHeadTokens]
  | ⟨_, lead, name, some args, _⟩ => by
    simp [TypeName.print, TypeName.tokens, spell_typeHeadTokens, TypeArguments.toList_print args]
termination_by structural t => t

theorem TypeArguments.toList_print : ∀ a : TypeArguments, a.print.toList = spell a.tokens
  | ⟨_, ⟨lead, items, close⟩⟩ => by
    simp [TypeArguments.print, TypeArguments.tokens, TypeName.toList_printAll items]
termination_by structural a => a

theorem TypeName.toList_printAll : ∀ ps : List (Padded TypeName),
    (TypeName.printAll ps).toList = spell (TypeName.tokensAll ps)
  | [] => rfl
  | [⟨t, _⟩] => TypeName.toList_print t
  | ⟨t, after⟩ :: q :: rest => by
    simp [TypeName.printAll, TypeName.tokensAll, TypeName.toList_print t,
      TypeName.toList_printAll (q :: rest)]
termination_by structural ps => ps

end

/-! ### Expressions -/

/-- The kind of the one token of a literal, seen from its first character. -/
def literalKind (c : Char) : TokenKind :=
  if c.isDigit then .number
  else if c = '"' then .string
  else if c = '\'' then .character
  else .word

/-- The tokens of a literal: a minus is a token of its own. -/
def Literal.tokens (l : Literal) : List Token :=
  match l.text.toList with
  | '-' :: digits => [symbol l.lead "-", ⟨.number, "", String.ofList digits, 0⟩]
  | c :: _ => [⟨literalKind c, l.lead, l.text, 0⟩]
  | [] => [word l.lead ""]

theorem Literal.spell_tokens (l : Literal) : spell l.tokens = l.lead.toList ++ l.text.toList := by
  rw [Literal.tokens]
  split
  · next digits h => simp [h]
  · simp
  · next h => simp [h]

mutual

def Expr.tokens : Expr → List Token
  | .name ident => ident.tokens
  | .access ⟨_, target, dot, member, _⟩ => target.tokens ++ symbol dot "." :: member.tokens
  | .call ⟨_, none, _, member, ⟨opened, items, closed⟩⟩ =>
    member.tokens ++ symbol opened "(" :: Expr.tokensAll items ++ [symbol closed ")"]
  | .call ⟨_, some target, dot, member, ⟨opened, items, closed⟩⟩ =>
    target.tokens ++ symbol dot "." ::
      (member.tokens ++ symbol opened "(" :: Expr.tokensAll items ++ [symbol closed ")"])
  | .create ⟨_, lead, type, ⟨opened, items, closed⟩⟩ =>
    word lead "new" ::
      (type.tokens ++ symbol opened "(" :: Expr.tokensAll items ++ [symbol closed ")"])
  | .literal l => l.tokens
  | .binary ⟨_, left, opLead, op, right⟩ => left.tokens ++ symbol opLead op :: right.tokens
  | .parens ⟨_, lead, inner, close⟩ => symbol lead "(" :: (inner.tokens ++ [symbol close ")"])
termination_by structural e => e

def Expr.tokensAll : List (Padded Expr) → List Token
  | [] => []
  | [⟨e, _⟩] => e.tokens
  | ⟨e, after⟩ :: q :: rest => e.tokens ++ symbol after "," :: Expr.tokensAll (q :: rest)
termination_by structural ps => ps

end

theorem Expr.tokensAll_eq (ps : List (Padded Expr)) :
    Expr.tokensAll ps = itemTokens Expr.tokens ps := by
  induction ps with
  | nil => rfl
  | cons p rest ih =>
    cases rest with
    | nil => rfl
    | cons q rest => simp only [Expr.tokensAll, itemTokens, ih]

theorem Expr.tokens_call (id : NodeId) (dot : Trivia) (member : Ident) (args : Listing Expr) :
    (Expr.call ⟨id, none, dot, member, args⟩).tokens
      = member.tokens ++ args.tokens "(" ")" Expr.tokens := by
  obtain ⟨opened, items, closed⟩ := args
  simp [Expr.tokens, Expr.tokensAll_eq, Listing.tokens]

theorem Expr.tokens_memberCall (id : NodeId) (target : Expr) (dot : Trivia) (member : Ident)
    (args : Listing Expr) :
    (Expr.call ⟨id, some target, dot, member, args⟩).tokens
      = target.tokens ++ symbol dot "." :: (member.tokens ++ args.tokens "(" ")" Expr.tokens) := by
  obtain ⟨opened, items, closed⟩ := args
  simp [Expr.tokens, Expr.tokensAll_eq, Listing.tokens]

theorem Expr.tokens_create (id : NodeId) (lead : Trivia) (type : TypeName) (args : Listing Expr) :
    (Expr.create ⟨id, lead, type, args⟩).tokens
      = word lead "new" :: (type.tokens ++ args.tokens "(" ")" Expr.tokens) := by
  obtain ⟨opened, items, closed⟩ := args
  simp [Expr.tokens, Expr.tokensAll_eq, Listing.tokens]

theorem Literal.tokens_ne_nil (l : Literal) : l.tokens ≠ [] := by
  rw [Literal.tokens]
  split <;> simp

theorem Expr.tokens_ne_nil : ∀ e : Expr, e.tokens ≠ []
  | .name _ => by simp [Expr.tokens, Ident.tokens]
  | .access ⟨_, _, _, _, _⟩ => by simp [Expr.tokens]
  | .call ⟨_, none, _, _, _⟩ => by simp [Expr.tokens_call, Ident.tokens]
  | .call ⟨_, some _, _, _, _⟩ => by simp [Expr.tokens_memberCall]
  | .create ⟨_, _, _, _⟩ => by simp [Expr.tokens_create]
  | .literal l => Literal.tokens_ne_nil l
  | .binary ⟨_, _, _, _, _⟩ => by simp [Expr.tokens]
  | .parens ⟨_, _, _, _⟩ => by simp [Expr.tokens]

mutual

theorem Expr.toList_print : ∀ e : Expr, e.print.toList = spell e.tokens
  | .name ident => by
    simp [Expr.print, Expr.tokens, Ident.toList_print]
  | .access ⟨_, target, dot, member, _⟩ => by
    simp [Expr.print, Expr.tokens, Ident.toList_print, Expr.toList_print target]
  | .call ⟨_, none, _, member, ⟨opened, items, closed⟩⟩ => by
    simp [Expr.print, Expr.tokens, Ident.toList_print, Expr.toList_printAll items]
  | .call ⟨_, some target, dot, member, ⟨opened, items, closed⟩⟩ => by
    simp [Expr.print, Expr.tokens, Ident.toList_print, Expr.toList_print target,
      Expr.toList_printAll items]
  | .create ⟨_, lead, type, ⟨opened, items, closed⟩⟩ => by
    simp [Expr.print, Expr.tokens, TypeName.toList_print type, Expr.toList_printAll items]
  | .literal l => by
    simp [Expr.print, Expr.tokens, Literal.spell_tokens]
  | .binary ⟨_, left, opLead, op, right⟩ => by
    simp [Expr.print, Expr.tokens, Expr.toList_print left, Expr.toList_print right]
  | .parens ⟨_, lead, inner, close⟩ => by
    simp [Expr.print, Expr.tokens, Expr.toList_print inner]
termination_by structural e => e

theorem Expr.toList_printAll : ∀ ps : List (Padded Expr),
    (Expr.printAll ps).toList = spell (Expr.tokensAll ps)
  | [] => rfl
  | [⟨e, _⟩] => Expr.toList_print e
  | ⟨e, after⟩ :: q :: rest => by
    simp [Expr.printAll, Expr.tokensAll, Expr.toList_print e, Expr.toList_printAll (q :: rest)]
termination_by structural ps => ps

end

/-! ### Statements -/

def Initializer.tokens (i : Initializer) : List Token := symbol i.lead "=" :: i.value.tokens

theorem Initializer.toList_print (i : Initializer) : i.print.toList = spell i.tokens := by
  simp [Initializer.print, Initializer.tokens, Expr.toList_print]

def Variable.tokens (v : Variable) : List Token :=
  prependLead v.lead (modifierTokens v.modifiers ++ (v.type.tokens ++ (v.name.tokens
    ++ (optionTokens Initializer.tokens v.value ++ [symbol v.semi ";"]))))

theorem Variable.toList_print (v : Variable) : v.print.toList = spell v.tokens := by
  rw [Variable.tokens, spell_prependLead _ (by simp)]
  simp [Variable.print, toList_printModifiers, TypeName.toList_print, Ident.toList_print,
    toList_printOption fun i _ => Initializer.toList_print i]

def ExprStmt.tokens (s : ExprStmt) : List Token :=
  prependLead s.lead (s.expr.tokens ++ [symbol s.semi ";"])

theorem ExprStmt.toList_print (s : ExprStmt) : s.print.toList = spell s.tokens := by
  rw [ExprStmt.tokens, spell_prependLead _ (by simp)]
  simp [ExprStmt.print, Expr.toList_print]

def Return.tokens (s : Return) : List Token :=
  word s.lead "return" :: (optionTokens Expr.tokens s.value ++ [symbol s.semi ";"])

theorem Return.toList_print (s : Return) : s.print.toList = spell s.tokens := by
  simp [Return.print, Return.tokens, toList_printOption fun e _ => Expr.toList_print e]

mutual

def Stmt.tokens : Stmt → List Token
  | .expr stmt => stmt.tokens
  | .localVar var => var.tokens
  | .ret stmt => stmt.tokens
  | .block b => b.tokens
termination_by structural s => s

def Block.tokens : Block → List Token
  | ⟨_, lead, statements, close⟩ =>
    symbol lead "\x7b" :: (Stmt.tokensAll statements ++ [symbol close "\x7d"])
termination_by structural b => b

def Stmt.tokensAll : List Stmt → List Token
  | [] => []
  | s :: rest => s.tokens ++ Stmt.tokensAll rest
termination_by structural ss => ss

end

theorem Stmt.tokensAll_eq (ss : List Stmt) : Stmt.tokensAll ss = ss.flatMap Stmt.tokens := by
  induction ss with
  | nil => rfl
  | cons s rest ih => rw [Stmt.tokensAll, ih, List.flatMap_cons]

mutual

theorem Stmt.toList_print : ∀ s : Stmt, s.print.toList = spell s.tokens
  | .expr stmt => stmt.toList_print
  | .localVar var => var.toList_print
  | .ret stmt => stmt.toList_print
  | .block b => Block.toList_print b
termination_by structural s => s

theorem Block.toList_print : ∀ b : Block, b.print.toList = spell b.tokens
  | ⟨_, lead, statements, close⟩ => by
    simp [Block.print, Block.tokens, Stmt.toList_printAll statements]
termination_by structural b => b

theorem Stmt.toList_printAll : ∀ ss : List Stmt,
    (Stmt.printAll ss).toList = spell (Stmt.tokensAll ss)
  | [] => rfl
  | s :: rest => by
    simp [Stmt.printAll, Stmt.tokensAll, Stmt.toList_print s, Stmt.toList_printAll rest]
termination_by structural ss => ss

end

/-! ### Declarations -/

def Param.tokens (p : Param) : List Token :=
  prependLead p.lead (modifierTokens p.modifiers ++ (p.type.tokens ++ p.name.tokens))

theorem Param.toList_print (p : Param) : p.print.toList = spell p.tokens := by
  rw [Param.tokens, spell_prependLead _ (by simp [Ident.tokens])]
  simp [Param.print, toList_printModifiers, TypeName.toList_print, Ident.toList_print]

def MethodBody.tokens : MethodBody → List Token
  | .block b => b.tokens
  | .absent semi => [symbol semi ";"]

theorem MethodBody.toList_print (b : MethodBody) : b.print.toList = spell b.tokens := by
  cases b with
  | block b => exact Block.toList_print b
  | absent semi => simp [MethodBody.print, MethodBody.tokens]

def Method.tokens (m : Method) : List Token :=
  prependLead m.lead (modifierTokens m.modifiers ++ (optionTokens TypeName.tokens m.returnType
    ++ (m.name.tokens ++ (m.params.tokens "(" ")" Param.tokens ++ m.body.tokens))))

theorem Method.toList_print (m : Method) : m.print.toList = spell m.tokens := by
  rw [Method.tokens, spell_prependLead _ (by simp [Ident.tokens])]
  simp [Method.print, toList_printModifiers, Ident.toList_print, MethodBody.toList_print,
    toList_printOption fun t _ => TypeName.toList_print t, Listing.print, Listing.tokens,
    toList_printItems fun p _ => Param.toList_print p.elem]

def TypeClause.tokens (keyword : String) (c : TypeClause) : List Token :=
  word c.lead keyword :: itemTokens TypeName.tokens c.types

theorem TypeClause.toList_print (keyword : String) (c : TypeClause) :
    (c.print keyword).toList = spell (c.tokens keyword) := by
  simp [TypeClause.print, TypeClause.tokens, toList_printItems fun p _ => TypeName.toList_print p.elem]

/-- The tokens of a declaration between its modifiers and its body. -/
def headerTokens (kindLead : Trivia) (kind : TypeKind) (name : Ident)
    (typeParams : Option TypeArguments) (extending implementing : Option TypeClause) : List Token :=
  word kindLead kind.keyword :: (name.tokens ++ (optionTokens TypeArguments.tokens typeParams
    ++ (optionTokens (TypeClause.tokens "extends") extending
    ++ optionTokens (TypeClause.tokens "implements") implementing)))

mutual

def Member.tokens : Member → List Token
  | .field var => var.tokens
  | .method m => m.tokens
  | .type decl => decl.tokens
termination_by structural m => m

def TypeDecl.tokens : TypeDecl → List Token
  | ⟨_, lead, modifiers, kindLead, kind, name, typeParams, extending, implementing, body⟩ =>
    prependLead lead (modifierTokens modifiers
      ++ (headerTokens kindLead kind name typeParams extending implementing ++ body.tokens))
termination_by structural d => d

def TypeBody.tokens : TypeBody → List Token
  | ⟨_, lead, members, close⟩ =>
    symbol lead "\x7b" :: (Member.tokensAll members ++ [symbol close "\x7d"])
termination_by structural b => b

def Member.tokensAll : List Member → List Token
  | [] => []
  | m :: rest => m.tokens ++ Member.tokensAll rest
termination_by structural ms => ms

end

theorem Member.tokensAll_eq (ms : List Member) : Member.tokensAll ms = ms.flatMap Member.tokens := by
  induction ms with
  | nil => rfl
  | cons m rest ih => rw [Member.tokensAll, ih, List.flatMap_cons]

theorem toList_printHeader (lead : Trivia) (modifiers : List Ident) (kindLead : Trivia)
    (kind : TypeKind) (name : Ident) (typeParams : Option TypeArguments)
    (extending implementing : Option TypeClause) :
    (printHeader lead modifiers kindLead kind name typeParams extending implementing).toList
      = lead.toList ++ spell (modifierTokens modifiers
        ++ headerTokens kindLead kind name typeParams extending implementing) := by
  simp [printHeader, headerTokens, toList_printModifiers, Ident.toList_print,
    toList_printOption fun a _ => TypeArguments.toList_print a,
    toList_printOption fun c _ => TypeClause.toList_print "extends" c,
    toList_printOption fun c _ => TypeClause.toList_print "implements" c]

mutual

theorem Member.toList_print : ∀ m : Member, m.print.toList = spell m.tokens
  | .field var => var.toList_print
  | .method m => m.toList_print
  | .type decl => TypeDecl.toList_print decl
termination_by structural m => m

theorem TypeDecl.toList_print : ∀ d : TypeDecl, d.print.toList = spell d.tokens
  | ⟨_, lead, modifiers, kindLead, kind, name, typeParams, extending, implementing, body⟩ => by
    rw [TypeDecl.tokens, spell_prependLead _ (by simp [headerTokens]), TypeDecl.print,
      String.toList_append, toList_printHeader, TypeBody.toList_print body]
    simp
termination_by structural d => d

theorem TypeBody.toList_print : ∀ b : TypeBody, b.print.toList = spell b.tokens
  | ⟨_, lead, members, close⟩ => by
    simp [TypeBody.print, TypeBody.tokens, Member.toList_printAll members]
termination_by structural b => b

theorem Member.toList_printAll : ∀ ms : List Member,
    (Member.printAll ms).toList = spell (Member.tokensAll ms)
  | [] => rfl
  | m :: rest => by
    simp [Member.printAll, Member.tokensAll, Member.toList_print m, Member.toList_printAll rest]
termination_by structural ms => ms

end

/-! ### Modules -/

def Package.tokens (p : Package) : List Token :=
  word p.lead "package" :: (nameTokens p.nameLead p.name ++ [symbol p.semi ";"])

theorem Package.toList_print (p : Package) : p.print.toList = spell p.tokens := by
  simp [Package.print, Package.tokens, spell_nameTokens]

/-- The tokens of an import after its keyword. -/
def Import.tailTokens (i : Import) : List Token :=
  optionTokens (fun lead => [word lead "static"]) i.staticLead ++ (nameTokens i.nameLead i.name
    ++ (wildcardTokens i.wildcard ++ [symbol i.semi ";"]))

def Import.tokens (i : Import) : List Token := word i.lead "import" :: i.tailTokens

theorem Import.toList_print (i : Import) : i.print.toList = spell i.tokens := by
  obtain ⟨id, lead, staticLead, nameLead, name, wildcard, semi⟩ := i
  cases staticLead <;> cases wildcard <;>
    simp [Import.print, Import.tokens, Import.tailTokens, wildcardTokens, printOption, optionTokens,
      spell_nameTokens]

/-- The tokens of a module, the end of the file apart. -/
def Module.tokens (m : Module) : List Token :=
  optionTokens Package.tokens m.package ++ (m.imports.flatMap Import.tokens
    ++ m.types.flatMap TypeDecl.tokens)

theorem spell_flatMap {α : Type} (tokens : α → List Token) (as : List α) :
    spell (as.flatMap tokens) = as.flatMap fun a => spell (tokens a) := by
  induction as with
  | nil => rfl
  | cons a as ih => simp [List.flatMap_cons, ih]

/-- **A module is written with its tokens**, and with the trivia at the end of the file. -/
theorem Module.toList_print (m : Module) : m.print.toList = spell m.tokens ++ m.eof.toList := by
  simp [Module.print, Module.tokens, toList_printOption fun p _ => Package.toList_print p,
    String.toList_join, List.flatMap_map, spell_flatMap, Import.toList_print,
    TypeDecl.toList_print]

/-! ### Places

The tokens of a tree stand at no place. -/

/-- The tokens of the row stand at no place. -/
def Unplaced (ts : List Token) : Prop := ts.map Token.unplaced = ts

theorem Unplaced.nil : Unplaced [] := rfl

theorem unplaced_append {as bs : List Token} :
    Unplaced as → Unplaced bs → Unplaced (as ++ bs) := by
  intro ha hb
  rw [Unplaced, List.map_append, ha, hb]

theorem unplaced_cons {t : Token} {ts : List Token} (ht : t.offset = 0) (h : Unplaced ts) :
    Unplaced (t :: ts) := by
  obtain ⟨kind, lead, text, offset⟩ := t
  obtain rfl : offset = 0 := ht
  rw [Unplaced, List.map_cons, h]
  rfl

theorem unplaced_prependLead {lead : Trivia} {ts : List Token} (h : Unplaced ts) :
    Unplaced (prependLead lead ts) := by
  cases ts with
  | nil => rfl
  | cons t ts =>
    have hcons := List.cons.inj h
    exact unplaced_cons (congrArg Token.offset hcons.1).symm hcons.2

theorem unplaced_flatMap {α : Type} {tokens : α → List Token} {as : List α}
    (h : ∀ a ∈ as, Unplaced (tokens a)) : Unplaced (as.flatMap tokens) := by
  induction as with
  | nil => rfl
  | cons a as ih =>
    rw [List.flatMap_cons]
    exact unplaced_append (h a List.mem_cons_self) (ih fun b hb => h b (List.mem_cons_of_mem _ hb))

theorem unplaced_option {α : Type} {tokens : α → List Token} {o : Option α}
    (h : ∀ a ∈ o, Unplaced (tokens a)) : Unplaced (optionTokens tokens o) := by
  cases o with
  | none => rfl
  | some a => exact h a rfl

theorem unplaced_items {α : Type} {tokens : α → List Token} {ps : List (Padded α)}
    (h : ∀ p ∈ ps, Unplaced (tokens p.elem)) : Unplaced (itemTokens tokens ps) := by
  induction ps with
  | nil => rfl
  | cons p rest ih =>
    have hp := h p List.mem_cons_self
    cases rest with
    | nil => exact hp
    | cons q rest =>
      exact unplaced_append hp
        (unplaced_cons rfl (ih fun x hx => h x (List.mem_cons_of_mem _ hx)))

theorem unplaced_listing {α : Type} {tokens : α → List Token} {opening closing : String}
    {l : Listing α} (h : ∀ p ∈ l.items, Unplaced (tokens p.elem)) :
    Unplaced (l.tokens opening closing tokens) :=
  unplaced_append (unplaced_cons rfl (unplaced_items h)) rfl

theorem unplaced_modifierTokens (ms : List Ident) : Unplaced (modifierTokens ms) := by
  rw [Unplaced, modifierTokens, List.map_map]
  rfl

theorem unplaced_dotTokens (ss : List String) : Unplaced (dotTokens ss) :=
  unplaced_flatMap fun _ _ => rfl

theorem unplaced_nameTokens (lead : Trivia) (name : String) : Unplaced (nameTokens lead name) := by
  rw [nameTokens]
  cases Name.segments name with
  | nil => rfl
  | cons s ss => exact unplaced_cons rfl (unplaced_dotTokens ss)

theorem unplaced_typeHeadTokens (lead : Trivia) (name : String) :
    Unplaced (typeHeadTokens lead name) := by
  rw [typeHeadTokens]
  split
  · rfl
  · exact unplaced_nameTokens lead name

mutual

theorem TypeName.unplaced_tokens : ∀ t : TypeName, Unplaced t.tokens
  | ⟨_, lead, name, none, _⟩ => unplaced_typeHeadTokens lead name
  | ⟨_, lead, name, some args, _⟩ =>
    unplaced_append (unplaced_typeHeadTokens lead name) (TypeArguments.unplaced_tokens args)
termination_by structural t => t

theorem TypeArguments.unplaced_tokens : ∀ a : TypeArguments, Unplaced a.tokens
  | ⟨_, ⟨_, items, _⟩⟩ =>
    unplaced_append (unplaced_cons rfl (TypeName.unplaced_tokensAll items)) rfl
termination_by structural a => a

theorem TypeName.unplaced_tokensAll : ∀ ps : List (Padded TypeName),
    Unplaced (TypeName.tokensAll ps)
  | [] => rfl
  | [⟨t, _⟩] => TypeName.unplaced_tokens t
  | ⟨t, _⟩ :: q :: rest =>
    unplaced_append (TypeName.unplaced_tokens t)
      (unplaced_cons rfl (TypeName.unplaced_tokensAll (q :: rest)))
termination_by structural ps => ps

end

theorem Literal.unplaced_tokens (l : Literal) : Unplaced l.tokens := by
  rw [Literal.tokens]
  split <;> rfl

mutual

theorem Expr.unplaced_tokens : ∀ e : Expr, Unplaced e.tokens
  | .name _ => rfl
  | .access ⟨_, target, _, _, _⟩ =>
    unplaced_append (Expr.unplaced_tokens target) (unplaced_cons rfl rfl)
  | .call ⟨_, none, _, _, ⟨_, items, _⟩⟩ =>
    unplaced_append (unplaced_append rfl (unplaced_cons rfl (Expr.unplaced_tokensAll items))) rfl
  | .call ⟨_, some target, _, _, ⟨_, items, _⟩⟩ =>
    unplaced_append (Expr.unplaced_tokens target) (unplaced_cons rfl (unplaced_append
      (unplaced_append rfl (unplaced_cons rfl (Expr.unplaced_tokensAll items))) rfl))
  | .create ⟨_, _, type, ⟨_, items, _⟩⟩ =>
    unplaced_cons rfl (unplaced_append (unplaced_append (TypeName.unplaced_tokens type)
      (unplaced_cons rfl (Expr.unplaced_tokensAll items))) rfl)
  | .literal l => l.unplaced_tokens
  | .binary ⟨_, left, _, _, right⟩ =>
    unplaced_append (Expr.unplaced_tokens left) (unplaced_cons rfl (Expr.unplaced_tokens right))
  | .parens ⟨_, _, inner, _⟩ =>
    unplaced_cons rfl (unplaced_append (Expr.unplaced_tokens inner) rfl)
termination_by structural e => e

theorem Expr.unplaced_tokensAll : ∀ ps : List (Padded Expr), Unplaced (Expr.tokensAll ps)
  | [] => rfl
  | [⟨e, _⟩] => Expr.unplaced_tokens e
  | ⟨e, _⟩ :: q :: rest =>
    unplaced_append (Expr.unplaced_tokens e)
      (unplaced_cons rfl (Expr.unplaced_tokensAll (q :: rest)))
termination_by structural ps => ps

end

theorem Variable.unplaced_tokens (v : Variable) : Unplaced v.tokens :=
  unplaced_prependLead (unplaced_append (unplaced_modifierTokens _) (unplaced_append
    (TypeName.unplaced_tokens _) (unplaced_append rfl (unplaced_append
      (unplaced_option fun i _ => unplaced_cons rfl (Expr.unplaced_tokens i.value)) rfl))))

mutual

theorem Stmt.unplaced_tokens : ∀ s : Stmt, Unplaced s.tokens
  | .expr s => unplaced_prependLead (unplaced_append (Expr.unplaced_tokens s.expr) rfl)
  | .localVar v => v.unplaced_tokens
  | .ret _ => unplaced_cons rfl (unplaced_append
      (unplaced_option fun e _ => Expr.unplaced_tokens e) rfl)
  | .block b => Block.unplaced_tokens b
termination_by structural s => s

theorem Block.unplaced_tokens : ∀ b : Block, Unplaced b.tokens
  | ⟨_, _, statements, _⟩ =>
    unplaced_cons rfl (unplaced_append (Stmt.unplaced_tokensAll statements) rfl)
termination_by structural b => b

theorem Stmt.unplaced_tokensAll : ∀ ss : List Stmt, Unplaced (Stmt.tokensAll ss)
  | [] => rfl
  | s :: rest => unplaced_append (Stmt.unplaced_tokens s) (Stmt.unplaced_tokensAll rest)
termination_by structural ss => ss

end

theorem Param.unplaced_tokens (p : Param) : Unplaced p.tokens :=
  unplaced_prependLead (unplaced_append (unplaced_modifierTokens _)
    (unplaced_append (TypeName.unplaced_tokens _) rfl))

theorem MethodBody.unplaced_tokens : ∀ b : MethodBody, Unplaced b.tokens
  | .block b => b.unplaced_tokens
  | .absent _ => rfl

theorem Method.unplaced_tokens (m : Method) : Unplaced m.tokens :=
  unplaced_prependLead (unplaced_append (unplaced_modifierTokens _) (unplaced_append
    (unplaced_option fun t _ => TypeName.unplaced_tokens t) (unplaced_append rfl (unplaced_append
      (unplaced_listing fun p _ => p.elem.unplaced_tokens) m.body.unplaced_tokens))))

theorem TypeClause.unplaced_tokens (keyword : String) (c : TypeClause) :
    Unplaced (c.tokens keyword) :=
  unplaced_cons rfl (unplaced_items fun p _ => p.elem.unplaced_tokens)

mutual

theorem Member.unplaced_tokens : ∀ m : Member, Unplaced m.tokens
  | .field v => v.unplaced_tokens
  | .method m => m.unplaced_tokens
  | .type d => TypeDecl.unplaced_tokens d
termination_by structural m => m

theorem TypeDecl.unplaced_tokens : ∀ d : TypeDecl, Unplaced d.tokens
  | ⟨_, _, _, _, _, _, _, _, _, body⟩ =>
    unplaced_prependLead (unplaced_append (unplaced_modifierTokens _) (unplaced_append
      (unplaced_cons rfl (unplaced_append rfl (unplaced_append
        (unplaced_option fun a _ => a.unplaced_tokens) (unplaced_append
        (unplaced_option fun c _ => c.unplaced_tokens _)
        (unplaced_option fun c _ => c.unplaced_tokens _)))))
      (TypeBody.unplaced_tokens body)))
termination_by structural d => d

theorem TypeBody.unplaced_tokens : ∀ b : TypeBody, Unplaced b.tokens
  | ⟨_, _, members, _⟩ =>
    unplaced_cons rfl (unplaced_append (Member.unplaced_tokensAll members) rfl)
termination_by structural b => b

theorem Member.unplaced_tokensAll : ∀ ms : List Member, Unplaced (Member.tokensAll ms)
  | [] => rfl
  | m :: rest => unplaced_append (Member.unplaced_tokens m) (Member.unplaced_tokensAll rest)
termination_by structural ms => ms

end

theorem Import.unplaced_tokens (i : Import) : Unplaced i.tokens := by
  refine unplaced_cons rfl (unplaced_append (unplaced_option fun _ _ => rfl)
    (unplaced_append (unplaced_nameTokens _ _) (unplaced_append ?_ rfl)))
  cases i.wildcard <;> rfl

theorem Module.unplaced_tokens (m : Module) : Unplaced m.tokens :=
  unplaced_append
    (unplaced_option fun _ _ => unplaced_cons rfl (unplaced_append (unplaced_nameTokens _ _) rfl))
    (unplaced_append (unplaced_flatMap fun i _ => i.unplaced_tokens)
      (unplaced_flatMap fun d _ => d.unplaced_tokens))

end Migration
