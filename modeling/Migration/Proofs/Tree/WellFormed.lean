import Migration.Grammar.Declarations
import Migration.Proofs.Tree.Tokens

/-!
# Well-formed trees

The trees that the grammar can produce: names are words that may stand where they stand, the operands
of an operator bind at least as tightly as it does, trivia that belongs to a statement or a
declaration is not repeated inside it, and an expression that is a statement does not look like a
variable. Numbers of nodes and trivia are free.

`unnumbered` forgets the numbers. Two trees that agree without them are the same tree but for the
order in which their nodes came about.
-/

namespace Migration

/-! ### Words -/

/-- The text may be a simple name. -/
def isNameText (s : String) : Bool := Scan.isWordText s.toList && (Token.word "" s).isName

/-- The text may be a segment after a dot; with another dot behind it, a keyword may too. -/
def isSegmentText (dotted : Bool) (s : String) : Bool :=
  Scan.isWordText s.toList && !(Token.word "" s).isMarker && (dotted || !reservedWords.contains s)

/-- The text may be a modifier. -/
def isModifierText (s : String) : Bool :=
  Scan.isWordText s.toList && ((Token.word "" s).isMarker || modifierWords.contains s)

/-- Segments after the first one, `dotted` telling whether a dot follows the last. -/
def areSegmentTexts (dotted : Bool) : List String → Bool
  | [] => true
  | [s] => isSegmentText dotted s
  | s :: t :: rest => isSegmentText true s && areSegmentTexts dotted (t :: rest)

/-- The segments of a dotted name, `dotted` telling whether a dot follows it. -/
def isDottedText (dotted : Bool) (name : String) : Bool :=
  match Name.segments name with
  | [] => false
  | s :: ss => isNameText s && areSegmentTexts dotted ss

/-- The first token of the row is spelled `text`. -/
def headIs (ts : List Token) (text : String) : Bool :=
  match ts with
  | [] => false
  | t :: _ => t.is text

@[simp] theorem headIs_nil (text : String) : headIs [] text = false := rfl

@[simp] theorem headIs_cons (t : Token) (ts : List Token) (text : String) :
    headIs (t :: ts) text = t.is text := rfl

theorem headIs_append {as : List Token} (bs : List Token) (text : String) (h : as ≠ []) :
    headIs (as ++ bs) text = headIs as text := by
  cases as with
  | nil => exact absurd rfl h
  | cons t ts => rfl

/-- A modifier stands at the front of the row. -/
def startsModifier : List Token → Bool
  | [] => false
  | t :: ts => t.kind == .word && (t.isMarker || modifierWords.contains t.text)
      && !(t.text == "default" && headIs ts ":")

/-- The first token has no trivia in front of it. -/
def HeadBare (ts : List Token) : Prop := ∀ t ∈ ts.head?, t.lead = ""

/-- All items satisfy `P`, and the last is followed by nothing. -/
def ItemsOk {α : Type} (P : α → Prop) : List (Padded α) → Prop
  | [] => True
  | [p] => P p.elem ∧ p.after = ""
  | p :: q :: rest => P p.elem ∧ ItemsOk P (q :: rest)

/-- The item with another element. -/
def Padded.map {α β : Type} (f : α → β) (p : Padded α) : Padded β := ⟨f p.elem, p.after⟩

/-- A list between brackets with other elements. -/
def Listing.map {α β : Type} (f : α → β) (l : Listing α) : Listing β :=
  ⟨l.lead, l.items.map (Padded.map f), l.close⟩

def Ident.unnumbered (i : Ident) : Ident := { i with id := 0 }

/-! ### Types -/

/-- The name of a type, without its arguments. -/
def isTypeText (name : String) : Bool := name == "?" || isDottedText false name

mutual

def TypeName.WellFormed : TypeName → Prop
  | ⟨_, _, name, none, resolved⟩ => isTypeText name = true ∧ resolved = none
  | ⟨_, _, name, some args, resolved⟩ =>
    isTypeText name = true ∧ resolved = none ∧ args.WellFormed
termination_by structural t => t

def TypeArguments.WellFormed : TypeArguments → Prop
  | ⟨_, ⟨_, items, _⟩⟩ => TypeName.WellFormedAll items
termination_by structural a => a

def TypeName.WellFormedAll : List (Padded TypeName) → Prop
  | [] => True
  | [⟨t, after⟩] => t.WellFormed ∧ after = ""
  | ⟨t, _⟩ :: q :: rest => t.WellFormed ∧ TypeName.WellFormedAll (q :: rest)
termination_by structural ps => ps

end

theorem TypeName.wellFormedAll_iff (ps : List (Padded TypeName)) :
    TypeName.WellFormedAll ps ↔ ItemsOk TypeName.WellFormed ps := by
  induction ps with
  | nil => rfl
  | cons p rest ih =>
    cases rest with
    | nil => rfl
    | cons q rest => simp only [TypeName.WellFormedAll, ItemsOk, ih]

theorem TypeName.wellFormed_iff (t : TypeName) : t.WellFormed ↔
    isTypeText t.name = true ∧ t.resolved = none ∧ ∀ a ∈ t.args, a.WellFormed := by
  obtain ⟨id, lead, name, args, resolved⟩ := t
  cases args <;> simp [TypeName.WellFormed]

mutual

def TypeName.unnumbered : TypeName → TypeName
  | ⟨_, lead, name, none, resolved⟩ => ⟨0, lead, name, none, resolved⟩
  | ⟨_, lead, name, some args, resolved⟩ => ⟨0, lead, name, some args.unnumbered, resolved⟩
termination_by structural t => t

def TypeArguments.unnumbered : TypeArguments → TypeArguments
  | ⟨_, ⟨lead, items, close⟩⟩ => ⟨0, ⟨lead, TypeName.unnumberedAll items, close⟩⟩
termination_by structural a => a

def TypeName.unnumberedAll : List (Padded TypeName) → List (Padded TypeName)
  | [] => []
  | ⟨t, after⟩ :: rest => ⟨t.unnumbered, after⟩ :: TypeName.unnumberedAll rest
termination_by structural ps => ps

end

theorem TypeName.unnumberedAll_eq (ps : List (Padded TypeName)) :
    TypeName.unnumberedAll ps = ps.map (Padded.map TypeName.unnumbered) := by
  induction ps with
  | nil => rfl
  | cons p rest ih => rw [TypeName.unnumberedAll, ih]; rfl

theorem TypeArguments.unnumbered_eq (id : NodeId) (l : Listing TypeName) :
    (TypeArguments.mk id l).unnumbered = ⟨0, l.map TypeName.unnumbered⟩ := by
  obtain ⟨lead, items, close⟩ := l
  rw [TypeArguments.unnumbered, TypeName.unnumberedAll_eq]
  rfl

theorem TypeName.unnumbered_eq (t : TypeName) : t.unnumbered
    = ⟨0, t.lead, t.name, t.args.map TypeArguments.unnumbered, t.resolved⟩ := by
  obtain ⟨id, lead, name, args, resolved⟩ := t
  cases args <;> rfl

/-- The type is `?` without arguments, after which no bound may follow. -/
def TypeName.isAny (t : TypeName) : Bool := t.name == "?" && t.args.isNone

/-- A type, a name and then `=` or `;` stand at the front of the row. -/
def DeclaresAhead (ts : List Token) : Prop :=
  ∃ (type : TypeName) (name sign : Token) (more : List Token),
    ts = type.tokens ++ name :: sign :: more ∧ type.WellFormed ∧ name.isName = true
      ∧ (sign.is "=" = true ∨ sign.is ";" = true) ∧ (type.isAny = true → name.text ≠ "super")

/-- The row starts like a local variable. -/
def LooksVariable (ts : List Token) : Prop :=
  headIs ts "final" = true ∨ (∃ t ∈ ts.head?, t.isMarker = true) ∨ DeclaresAhead ts

/-! ### Expressions -/

/-- How tightly an operator binds. -/
def operatorLevel (op : String) : Nat := operatorLevels.findIdx (·.contains op)

/-- How tightly an expression holds together; what is no operation does most. -/
def Expr.level : Expr → Nat
  | .binary ⟨_, _, _, op, _⟩ => operatorLevel op
  | _ => operatorLevels.length

/-- The text of a literal. -/
def isLiteralText (text : String) : Bool :=
  match text.toList with
  | '-' :: digits => Scan.isNumberText digits
  | c :: _ => Scan.isLexeme (literalKind c) text.toList
      && (literalKind c != .word || ["true", "false", "null"].contains text)
  | [] => false

mutual

/-- The expression can be read; `dotted` tells whether a dot follows it. -/
def Expr.WellFormed : Bool → Expr → Prop
  | _, .name ident => isNameText ident.name = true
  | dotted, .access ⟨_, target, _, member, owner⟩ =>
    target.WellFormed true ∧ target.level = operatorLevels.length
      ∧ isSegmentText dotted member.name = true ∧ owner = none
  | _, .call ⟨_, none, dot, member, ⟨_, items, _⟩⟩ =>
    dot = "" ∧ isNameText member.name = true ∧ Expr.WellFormedAll items
  | _, .call ⟨_, some target, _, member, ⟨_, items, _⟩⟩ =>
    target.WellFormed true ∧ target.level = operatorLevels.length
      ∧ isNameText member.name = true ∧ Expr.WellFormedAll items
  | _, .create ⟨_, _, type, ⟨_, items, _⟩⟩ => type.WellFormed ∧ Expr.WellFormedAll items
  | _, .literal l => isLiteralText l.text = true
  | _, .binary ⟨_, left, _, op, right⟩ =>
    left.WellFormed false ∧ right.WellFormed false ∧ operatorLevel op < operatorLevels.length
      ∧ 1 ≤ left.level ∧ operatorLevel op ≤ left.level
      ∧ (operatorLevel op = 0 ∨ operatorLevel op < right.level)
  | _, .parens ⟨_, _, inner, _⟩ => inner.WellFormed false
termination_by structural _ e => e

def Expr.WellFormedAll : List (Padded Expr) → Prop
  | [] => True
  | [⟨e, after⟩] => e.WellFormed false ∧ after = ""
  | ⟨e, _⟩ :: q :: rest => e.WellFormed false ∧ Expr.WellFormedAll (q :: rest)
termination_by structural ps => ps

end

theorem Expr.wellFormedAll_iff (ps : List (Padded Expr)) :
    Expr.WellFormedAll ps ↔ ItemsOk (Expr.WellFormed false) ps := by
  induction ps with
  | nil => rfl
  | cons p rest ih =>
    cases rest with
    | nil => rfl
    | cons q rest => simp only [Expr.WellFormedAll, ItemsOk, ih]

mutual

def Expr.unnumbered : Expr → Expr
  | .name ident => .name ident.unnumbered
  | .access ⟨_, target, dot, member, owner⟩ =>
    .access ⟨0, target.unnumbered, dot, member.unnumbered, owner⟩
  | .call ⟨_, none, dot, member, ⟨opened, items, closed⟩⟩ =>
    .call ⟨0, none, dot, member.unnumbered, ⟨opened, Expr.unnumberedAll items, closed⟩⟩
  | .call ⟨_, some target, dot, member, ⟨opened, items, closed⟩⟩ =>
    .call ⟨0, some target.unnumbered, dot, member.unnumbered,
      ⟨opened, Expr.unnumberedAll items, closed⟩⟩
  | .create ⟨_, lead, type, ⟨opened, items, closed⟩⟩ =>
    .create ⟨0, lead, type.unnumbered, ⟨opened, Expr.unnumberedAll items, closed⟩⟩
  | .literal l => .literal { l with id := 0 }
  | .binary ⟨_, left, opLead, op, right⟩ =>
    .binary ⟨0, left.unnumbered, opLead, op, right.unnumbered⟩
  | .parens ⟨_, lead, inner, close⟩ => .parens ⟨0, lead, inner.unnumbered, close⟩
termination_by structural e => e

def Expr.unnumberedAll : List (Padded Expr) → List (Padded Expr)
  | [] => []
  | ⟨e, after⟩ :: rest => ⟨e.unnumbered, after⟩ :: Expr.unnumberedAll rest
termination_by structural ps => ps

end

theorem Expr.unnumberedAll_eq (ps : List (Padded Expr)) :
    Expr.unnumberedAll ps = ps.map (Padded.map Expr.unnumbered) := by
  induction ps with
  | nil => rfl
  | cons p rest ih => rw [Expr.unnumberedAll, ih]; rfl

/-! ### Statements -/

/-- Modifiers, a type and a name as they stand in front of a field, a variable or a parameter. -/
structure Declares (modifiers : List Ident) (type : TypeName) (name : Ident) : Prop where
  bare : HeadBare (modifierTokens modifiers ++ type.tokens)
  modifiers_ok : ∀ m ∈ modifiers, isModifierText m.name = true
  type_ok : type.WellFormed
  unmodified : startsModifier (type.tokens ++ name.tokens) = false
  name_ok : isNameText name.name = true
  unbounded : type.isAny = true → name.name ≠ "super"

def Initializer.unnumbered (i : Initializer) : Initializer := { i with value := i.value.unnumbered }

structure Variable.WellFormed (v : Variable) : Prop where
  declares : Declares v.modifiers v.type v.name
  value : ∀ i ∈ v.value, i.value.WellFormed false

def Variable.unnumbered (v : Variable) : Variable :=
  { v with
    id := 0
    modifiers := v.modifiers.map Ident.unnumbered
    type := v.type.unnumbered
    name := v.name.unnumbered
    value := v.value.map Initializer.unnumbered }

/-- The tokens of a variable without the trivia in front of it. -/
def Variable.bareTokens (v : Variable) : List Token := Variable.tokens { v with lead := "" }

theorem Variable.tokens_eq (v : Variable) : v.tokens = prependLead v.lead v.bareTokens := by
  rw [Variable.bareTokens, Variable.tokens, Variable.tokens, prependLead_empty]

/-- The tokens of a variable in front of its semicolon. -/
def Variable.bodyTokens (v : Variable) : List Token :=
  modifierTokens v.modifiers ++ (v.type.tokens ++ (v.name.tokens
    ++ optionTokens Initializer.tokens v.value))

theorem Variable.bareTokens_eq (v : Variable) :
    v.bareTokens = v.bodyTokens ++ [Token.symbol v.semi ";"] := by
  rw [Variable.bareTokens, Variable.tokens, prependLead_empty]
  simp [Variable.bodyTokens]

mutual

def Stmt.WellFormed : Stmt → Prop
  | .expr s => HeadBare s.expr.tokens ∧ s.expr.WellFormed false
      ∧ ¬ LooksVariable (s.expr.tokens ++ [Token.symbol s.semi ";"])
  | .localVar v => v.WellFormed ∧ LooksVariable v.bareTokens
  | .ret s => ∀ e ∈ s.value, e.WellFormed false
  | .block b => b.WellFormed
termination_by structural s => s

def Block.WellFormed : Block → Prop
  | ⟨_, _, statements, _⟩ => Stmt.WellFormedAll statements
termination_by structural b => b

def Stmt.WellFormedAll : List Stmt → Prop
  | [] => True
  | s :: rest => s.WellFormed ∧ Stmt.WellFormedAll rest
termination_by structural ss => ss

end

theorem Stmt.wellFormedAll_iff (ss : List Stmt) :
    Stmt.WellFormedAll ss ↔ ∀ s ∈ ss, s.WellFormed := by
  induction ss with
  | nil => simp [Stmt.WellFormedAll]
  | cons s rest ih => simp [Stmt.WellFormedAll, ih]

mutual

def Stmt.unnumbered : Stmt → Stmt
  | .expr s => .expr { s with id := 0, expr := s.expr.unnumbered }
  | .localVar v => .localVar v.unnumbered
  | .ret s => .ret { s with id := 0, value := s.value.map Expr.unnumbered }
  | .block b => .block b.unnumbered
termination_by structural s => s

def Block.unnumbered : Block → Block
  | ⟨_, lead, statements, close⟩ => ⟨0, lead, Stmt.unnumberedAll statements, close⟩
termination_by structural b => b

def Stmt.unnumberedAll : List Stmt → List Stmt
  | [] => []
  | s :: rest => s.unnumbered :: Stmt.unnumberedAll rest
termination_by structural ss => ss

end

theorem Stmt.unnumberedAll_eq (ss : List Stmt) :
    Stmt.unnumberedAll ss = ss.map Stmt.unnumbered := by
  induction ss with
  | nil => rfl
  | cons s rest ih => rw [Stmt.unnumberedAll, ih]; rfl

/-! ### Declarations -/

def Param.WellFormed (p : Param) : Prop := Declares p.modifiers p.type p.name

def Param.unnumbered (p : Param) : Param :=
  { p with
    id := 0
    modifiers := p.modifiers.map Ident.unnumbered
    type := p.type.unnumbered
    name := p.name.unnumbered }

def MethodBody.WellFormed : MethodBody → Prop
  | .block b => b.WellFormed
  | .absent _ => True

def MethodBody.unnumbered : MethodBody → MethodBody
  | .block b => .block b.unnumbered
  | .absent semi => .absent semi

/-- Modifiers and the name of a constructor. -/
structure DeclaresConstructor (modifiers : List Ident) (name : Ident) (opened : Trivia) : Prop where
  bare : HeadBare (modifierTokens modifiers ++ name.tokens)
  modifiers_ok : ∀ m ∈ modifiers, isModifierText m.name = true
  unmodified : startsModifier (name.tokens ++ [Token.symbol opened "("]) = false
  name_ok : isNameText name.name = true

structure Method.WellFormed (m : Method) : Prop where
  declares : ∀ t ∈ m.returnType, Declares m.modifiers t m.name
  constructs : m.returnType = none → DeclaresConstructor m.modifiers m.name m.params.lead
  params : ItemsOk Param.WellFormed m.params.items
  body : m.body.WellFormed

def Method.unnumbered (m : Method) : Method :=
  { m with
    id := 0
    modifiers := m.modifiers.map Ident.unnumbered
    returnType := m.returnType.map TypeName.unnumbered
    name := m.name.unnumbered
    params := m.params.map Param.unnumbered
    body := m.body.unnumbered }

/-- A clause has a type at least. -/
structure TypeClause.WellFormed (c : TypeClause) : Prop where
  nonempty : c.types ≠ []
  types : ItemsOk TypeName.WellFormed c.types

def TypeClause.unnumbered (c : TypeClause) : TypeClause :=
  { c with id := 0, types := c.types.map (Padded.map TypeName.unnumbered) }

/-- The header of a type declaration. -/
structure DeclaresType (modifiers : List Ident) (kindLead : Trivia) (name : Ident)
    (typeParams : Option TypeArguments) (extending implementing : Option TypeClause) : Prop where
  bare : HeadBare (modifierTokens modifiers ++ [Token.word kindLead ""])
  modifiers_ok : ∀ m ∈ modifiers, isModifierText m.name = true
  name_ok : isNameText name.name = true
  typeParams_ok : ∀ a ∈ typeParams, a.WellFormed
  extending_ok : ∀ c ∈ extending, c.WellFormed
  implementing_ok : ∀ c ∈ implementing, c.WellFormed

mutual

def Member.WellFormed : Member → Prop
  | .field v => v.WellFormed
  | .method m => m.WellFormed
  | .type d => d.WellFormed
termination_by structural m => m

def TypeDecl.WellFormed : TypeDecl → Prop
  | ⟨_, _, modifiers, kindLead, _, name, typeParams, extending, implementing, body⟩ =>
    DeclaresType modifiers kindLead name typeParams extending implementing ∧ body.WellFormed
termination_by structural d => d

def TypeBody.WellFormed : TypeBody → Prop
  | ⟨_, _, members, _⟩ => Member.WellFormedAll members
termination_by structural b => b

def Member.WellFormedAll : List Member → Prop
  | [] => True
  | m :: rest => m.WellFormed ∧ Member.WellFormedAll rest
termination_by structural ms => ms

end

theorem Member.wellFormedAll_iff (ms : List Member) :
    Member.WellFormedAll ms ↔ ∀ m ∈ ms, m.WellFormed := by
  induction ms with
  | nil => simp [Member.WellFormedAll]
  | cons m rest ih => simp [Member.WellFormedAll, ih]

mutual

def Member.unnumbered : Member → Member
  | .field v => .field v.unnumbered
  | .method m => .method m.unnumbered
  | .type d => .type d.unnumbered
termination_by structural m => m

def TypeDecl.unnumbered : TypeDecl → TypeDecl
  | ⟨_, lead, modifiers, kindLead, kind, name, typeParams, extending, implementing, body⟩ =>
    ⟨0, lead, modifiers.map Ident.unnumbered, kindLead, kind, name.unnumbered,
      typeParams.map TypeArguments.unnumbered, extending.map TypeClause.unnumbered,
      implementing.map TypeClause.unnumbered, body.unnumbered⟩
termination_by structural d => d

def TypeBody.unnumbered : TypeBody → TypeBody
  | ⟨_, lead, members, close⟩ => ⟨0, lead, Member.unnumberedAll members, close⟩
termination_by structural b => b

def Member.unnumberedAll : List Member → List Member
  | [] => []
  | m :: rest => m.unnumbered :: Member.unnumberedAll rest
termination_by structural ms => ms

end

theorem Member.unnumberedAll_eq (ms : List Member) :
    Member.unnumberedAll ms = ms.map Member.unnumbered := by
  induction ms with
  | nil => rfl
  | cons m rest ih => rw [Member.unnumberedAll, ih]; rfl

/-! ### Modules -/

/-- The name of an import can be read; with `.*` behind it, it may end in a keyword. -/
def Import.WellFormed (i : Import) : Prop := isDottedText i.wildcard i.name = true

structure Module.WellFormed (m : Module) : Prop where
  package : ∀ p ∈ m.package, isDottedText false p.name = true
  imports : ∀ i ∈ m.imports, i.WellFormed
  types : ∀ d ∈ m.types, d.WellFormed

/-- The module without the numbers of its nodes. -/
def Module.unnumbered (m : Module) : Module where
  id := 0
  package := m.package.map fun p => { p with id := 0 }
  imports := m.imports.map fun i => { i with id := 0 }
  types := m.types.map TypeDecl.unnumbered
  eof := m.eof
  nextId := 0

end Migration
