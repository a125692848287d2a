import Migration.Grammar.Declarations

/-!
# How productions are composed

Every production is put together from few operations on the cursor: it may look at the cursor, number a
node, read a token, take its trivia, or refuse the source (`Composed`). There is one lemma for each
production, and it follows the text of the production. What these operations keep, every production keeps,
by induction on how it is composed.
-/

namespace Migration

namespace Parser

variable {α β : Type}

/-- The parser is put together from operations on the cursor. -/
inductive Composed : {α : Type} → Parser α → Prop
  | pure {α : Type} (a : α) : Composed (pure a)
  | bind {α β : Type} {p : Parser α} {f : α → Parser β} (hp : Composed p) (hf : ∀ a, Composed (f a)) :
    Composed (p >>= f)
  /-- What comes next may depend on all that is ahead. -/
  | look {α : Type} {f : Cursor → Parser α} (hf : ∀ c, Composed (f c)) : Composed fun c => f c c
  | fresh : Composed fresh
  | bump : Composed bump
  | takeLead : Composed takeLead
  | unexpected {α : Type} (expected : Expectation) : Composed (@unexpected α expected)
  | unsupported {α : Type} (what : Construct) : Composed (@unsupported α what)

/-! ### Combinators -/

theorem composed_fresh : Composed fresh := .fresh

theorem composed_bump : Composed bump := .bump

theorem composed_takeLead : Composed takeLead := .takeLead

namespace Composed

theorem get {f : Cursor → Parser α} (h : ∀ c, Composed (f c)) : Composed (MonadState.get >>= f) :=
  (look h : Composed fun c => f c c)

theorem ite {b : Prop} [Decidable b] {p q : Parser α} (hp : Composed p) (hq : Composed q) :
    Composed (if b then p else q) := by
  by_cases h : b
  · rwa [if_pos h]
  · rwa [if_neg h]

theorem bind_ite {b : Prop} [Decidable b] {p q : Parser α} {f : α → Parser β} (hp : Composed p)
    (hq : Composed q) (hf : ∀ a, Composed (f a)) : Composed (if b then p >>= f else q >>= f) :=
  ite (hp.bind hf) (hq.bind hf)

theorem map {p : Parser α} (f : α → β) (h : Composed p) : Composed (f <$> p) := by
  rw [map_eq_pure_bind]
  exact h.bind fun a => .pure (f a)

end Composed

theorem composed_expect (text : String) : Composed (expect text) :=
  .get fun _ => .ite (composed_bump.bind fun t => .pure t.lead) (.unexpected _)

/-- A comma and the item behind it. -/
def commaThen (item : Parser α) : Parser (Trivia × α) := do
  let comma ← bump
  return (comma.lead, ← item)

theorem composed_commaThen {item : Parser α} (h : Composed item) : Composed (commaThen item) :=
  composed_bump.bind fun _ => h.bind fun _ => .pure _

namespace Composed

theorem whenAt {text : String} {p : Parser α} (h : Composed p) : Composed (whenAt text p) :=
  get fun _ => ite (h.bind fun a => .pure (some a)) (.pure none)

theorem approx {F : Parser α → Parser α} (h : ∀ self, Composed self → Composed (F self)) (n : Nat) :
    Composed (approx F n) := by
  induction n with
  | zero => exact unexpected _
  | succ n ih => exact h _ ih

theorem fix {F : Parser α → Parser α} (h : ∀ self, Composed self → Composed (F self)) :
    Composed (fix F) :=
  (look fun c => approx h (c.rest.length + 1) : Composed fun c => Parser.approx F (c.rest.length + 1) c)

theorem repeatWhile {more : Cursor → Bool} {step : α → Parser α} (h : ∀ a, Composed (step a)) (a : α) :
    Composed (repeatWhile more step a) := by
  have hloop : ∀ n a, Composed (repeatUpTo more step n a) := by
    intro n
    induction n with
    | zero => exact fun a => .pure a
    | succ n ih => exact fun a => get fun _ => ite ((h a).bind ih) (.pure a)
  exact (look fun c => hloop (c.rest.length + 1) a :
    Composed fun c => repeatUpTo more step (c.rest.length + 1) a c)

theorem many {more : Cursor → Bool} {p : Parser α} (h : Composed p) : Composed (many more p) :=
  fix fun _ hself => get fun _ => ite (h.bind fun a => hself.bind fun as => .pure (a :: as)) (.pure [])

theorem separated {item : Parser α} (h : Composed item) : Composed (separated item) :=
  h.bind fun _ => (many (composed_commaThen h)).bind fun _ => .pure _

theorem listing {opening closing : String} {item : Parser α} (h : Composed item) :
    Composed (listing opening closing item) :=
  (composed_expect opening).bind fun _ => get fun _ => bind_ite (.pure []) (separated h) fun _ =>
    (composed_expect closing).bind fun _ => .pure _

end Composed

/-! ### Words and names -/

theorem composed_word : Composed word := composed_fresh.bind fun _ => composed_bump.bind fun _ => .pure _

theorem composed_ident : Composed ident := .get fun _ => .ite composed_word (.unexpected _)

theorem composed_memberName : Composed memberName := .get fun _ => .ite composed_word composed_ident

theorem composed_nameStep (wildcards : Bool) : Composed (nameStep wildcards) :=
  .get fun _ => .ite (.pure _) (.ite (.unsupported _) (.ite (.pure _) (.ite (.pure _) (.pure _))))

/-- The rest of a dotted name, given how it is read after one more segment. -/
def nameRestOf (wildcards : Bool) (self : Parser (String × Bool)) : Parser (String × Bool) := do
  match ← nameStep wildcards with
  | .stop => return ("", false)
  | .wildcard =>
    let _ ← bump
    let _ ← bump
    return ("", true)
  | .segment text =>
    let _ ← bump
    let _ ← bump
    let (rest, wildcard) ← self
    return ("." ++ text ++ rest, wildcard)

theorem nameRest_eq_fix (wildcards : Bool) : nameRest wildcards = fix (nameRestOf wildcards) := rfl

theorem composed_nameRestOf (wildcards : Bool) {self : Parser (String × Bool)} (hself : Composed self) :
    Composed (nameRestOf wildcards self) := by
  refine (composed_nameStep wildcards).bind fun step => ?_
  cases step with
  | stop => exact .pure _
  | wildcard => exact composed_bump.bind fun _ => composed_bump.bind fun _ => .pure _
  | segment text =>
    exact composed_bump.bind fun _ => composed_bump.bind fun _ => hself.bind fun _ => .pure _

theorem composed_nameRest (wildcards : Bool) : Composed (nameRest wildcards) := by
  rw [nameRest_eq_fix]
  exact .fix fun _ => composed_nameRestOf wildcards

theorem composed_dotted (wildcards : Bool) : Composed (dotted wildcards) :=
  .get fun _ => .ite
    (composed_bump.bind fun _ => (composed_nameRest wildcards).bind fun _ => .pure _)
    (.unexpected _)

theorem composed_modifier : Composed modifier :=
  .get fun _ => composed_word.bind fun _ => .get fun _ => .ite (.unsupported _) (.pure _)

theorem composed_modifiers : Composed modifiers := .many composed_modifier

/-! ### Types -/

theorem composed_typeHead : Composed typeHead :=
  .get fun _ => .ite (composed_bump.bind fun _ => .get fun _ => .ite (.unsupported _) (.pure _))
    ((composed_dotted false).bind fun _ => .pure _)

theorem composed_typeArgumentsOf {type : Parser TypeName} (h : Composed type) :
    Composed (typeArgumentsOf type) :=
  composed_fresh.bind fun _ => (Composed.listing h).bind fun _ => .pure _

theorem composed_typeNameOf {self : Parser TypeName} (hself : Composed self) :
    Composed (typeNameOf self) :=
  composed_fresh.bind fun _ => composed_typeHead.bind fun _ =>
    (Composed.whenAt (composed_typeArgumentsOf hself)).bind fun _ =>
    .get fun _ => .ite (.unsupported _) (.pure _)

theorem composed_typeName : Composed typeName := .fix fun _ => composed_typeNameOf

theorem composed_typeArguments : Composed typeArguments := composed_typeArgumentsOf composed_typeName

theorem composed_typeClause : Composed typeClause :=
  composed_fresh.bind fun _ => composed_bump.bind fun _ =>
    (Composed.separated composed_typeName).bind fun _ => .pure _

/-! ### Expressions -/

theorem composed_literal : Composed literal :=
  composed_fresh.bind fun _ => composed_bump.bind fun _ => .pure _

theorem composed_negativeNumber : Composed negativeNumber :=
  .get fun _ => .ite (.unsupported _)
    (composed_fresh.bind fun _ => composed_bump.bind fun _ => composed_bump.bind fun _ => .pure _)

section

variable {self : Parser Expr} (hself : Composed self)

include hself

theorem composed_argumentsOf : Composed (argumentsOf self) := .listing hself

theorem composed_creationOf : Composed (creationOf self) :=
  composed_fresh.bind fun _ => composed_bump.bind fun _ => composed_typeName.bind fun _ =>
    (composed_argumentsOf hself).bind fun _ => .pure _

theorem composed_nameOrCallOf : Composed (nameOrCallOf self) :=
  .get fun _ => .ite (composed_fresh.bind fun _ => composed_ident.bind fun _ =>
    (composed_argumentsOf hself).bind fun _ => .pure _) (composed_ident.bind fun _ => .pure _)

theorem composed_parensOf : Composed (parensOf self) :=
  composed_fresh.bind fun _ => composed_bump.bind fun _ => hself.bind fun _ =>
    (composed_expect ")").bind fun _ => .pure _

theorem composed_primaryOf : Composed (primaryOf self) := by
  refine .get fun c => ?_
  dsimp only
  split
  · exact composed_literal
  · exact composed_literal
  · exact composed_literal
  · exact .ite composed_literal (.ite (composed_creationOf hself)
      (.ite (composed_nameOrCallOf hself) (.unexpected _)))
  · exact .ite (composed_parensOf hself) (.ite composed_negativeNumber (.unexpected _))
  · exact .unexpected _

theorem composed_selectionOf (target : Expr) : Composed (selectionOf self target) :=
  composed_fresh.bind fun _ => composed_bump.bind fun _ => composed_memberName.bind fun _ => .get fun _ =>
    .ite ((composed_argumentsOf hself).bind fun _ => .pure _) (.pure _)

theorem composed_operandOf : Composed (operandOf self) :=
  (composed_primaryOf hself).bind fun first => .repeatWhile (composed_selectionOf hself) first

theorem composed_operationOf (left : Expr) : Composed (operationOf self left) :=
  composed_fresh.bind fun _ => composed_bump.bind fun _ => hself.bind fun _ => .pure _

theorem composed_operationsOf (levels : List (List String)) : Composed (operationsOf self levels) := by
  induction levels with
  | nil => exact composed_operandOf hself
  | cons level tighter ih => exact ih.bind fun first => .repeatWhile (composed_operationOf ih) first

theorem composed_exprOf : Composed (exprOf self) :=
  (composed_operationsOf hself _).bind fun first => .repeatWhile (composed_operationOf hself) first

end

theorem composed_expr : Composed expr := .fix fun _ => composed_exprOf

/-! ### Statements -/

theorem composed_initializer : Composed initializer :=
  .whenAt (composed_bump.bind fun _ => composed_expr.bind fun _ => .pure _)

theorem composed_variableOf (id : NodeId) (lead : Trivia) (modifiers : List Ident) (type : TypeName)
    (name : Ident) : Composed (variableOf id lead modifiers type name) :=
  composed_initializer.bind fun _ => (composed_expect ";").bind fun _ => .pure _

theorem composed_returnOf (id : NodeId) (lead : Trivia) : Composed (returnOf id lead) :=
  composed_bump.bind fun _ => .get fun _ => .bind_ite (.pure _) (.map _ composed_expr) fun _ =>
    (composed_expect ";").bind fun _ => .pure _

theorem composed_localVarOf (id : NodeId) (lead : Trivia) : Composed (localVarOf id lead) :=
  composed_modifiers.bind fun ms => composed_typeName.bind fun type => composed_ident.bind fun name =>
    composed_variableOf id lead ms type name

theorem composed_exprStmtOf (id : NodeId) (lead : Trivia) : Composed (exprStmtOf id lead) :=
  composed_expr.bind fun _ => (composed_expect ";").bind fun _ => .pure _

/-- A look-ahead is a look at the cursor like any other: where it fails, nothing is refused. -/
theorem composed_statementOf {self : Parser Block} (hself : Composed self) : Composed (statementOf self) :=
  .get fun _ => .ite (hself.bind fun _ => .pure _) (.ite (.unsupported _)
    (composed_fresh.bind fun id => composed_takeLead.bind fun lead => .get fun _ =>
      .ite ((composed_returnOf id lead).bind fun _ => .pure _)
        (.ite ((composed_localVarOf id lead).bind fun _ => .pure _)
          ((composed_exprStmtOf id lead).bind fun _ => .pure _))))

/-- An item, which must come before the end of the file. -/
def beforeEnd (item : Parser α) : Parser α := do
  if (← get).atEnd then unexpected (.token "\x7d") else item

theorem composed_beforeEnd {item : Parser α} (h : Composed item) : Composed (beforeEnd item) :=
  .get fun _ => .ite (.unexpected _) h

theorem composed_untilBrace {item : Parser α} (h : Composed item) : Composed (untilBrace item) :=
  .many (composed_beforeEnd h)

theorem composed_blockOf {self : Parser Block} (hself : Composed self) : Composed (blockOf self) :=
  composed_fresh.bind fun _ => (composed_expect _).bind fun _ =>
    (composed_untilBrace (composed_statementOf hself)).bind fun _ =>
    (composed_expect _).bind fun _ => .pure _

theorem composed_block : Composed block := .fix fun _ => composed_blockOf

/-! ### Declarations -/

theorem composed_param : Composed param :=
  composed_fresh.bind fun _ => composed_takeLead.bind fun _ => composed_modifiers.bind fun _ =>
    composed_typeName.bind fun _ => composed_ident.bind fun _ => .pure _

theorem composed_methodBody : Composed methodBody :=
  .get fun _ => .ite (composed_block.bind fun _ => .pure _) (.ite (composed_bump.bind fun _ => .pure _)
    (.ite (.unsupported _) (.unexpected _)))

theorem composed_methodOf (id : NodeId) (lead : Trivia) (modifiers : List Ident)
    (returnType : Option TypeName) (name : Ident) :
    Composed (methodOf id lead modifiers returnType name) :=
  (Composed.listing composed_param).bind fun _ => composed_methodBody.bind fun _ => .pure _

theorem composed_fieldOrMethodOf (id : NodeId) (lead : Trivia) (modifiers : List Ident) :
    Composed (fieldOrMethodOf id lead modifiers) := by
  refine .get fun _ => .bind_ite (.pure _) (.map _ composed_typeName) fun type =>
    composed_ident.bind fun name => .get fun _ =>
    .ite ((composed_methodOf id lead modifiers type name).bind fun _ => .pure _) ?_
  cases type with
  | none => exact .unexpected _
  | some type => exact (composed_variableOf id lead modifiers type name).bind fun _ => .pure _

theorem composed_typeKind : Composed typeKind :=
  .get fun _ => .ite (composed_bump.bind fun _ => .pure _) (.ite (composed_bump.bind fun _ => .pure _)
    (.ite (.unsupported _) (.unexpected _)))

theorem composed_typeDeclOf {body : Parser TypeBody} (hbody : Composed body) (id : NodeId) (lead : Trivia)
    (modifiers : List Ident) : Composed (typeDeclOf body id lead modifiers) :=
  composed_typeKind.bind fun _ => composed_ident.bind fun _ =>
    (Composed.whenAt composed_typeArguments).bind fun _ =>
    (Composed.whenAt composed_typeClause).bind fun _ =>
    (Composed.whenAt composed_typeClause).bind fun _ => hbody.bind fun _ => .pure _

theorem composed_memberOf {self : Parser TypeBody} (hself : Composed self) : Composed (memberOf self) :=
  composed_fresh.bind fun id => composed_takeLead.bind fun lead => composed_modifiers.bind fun ms =>
    .get fun _ =>
    .ite ((composed_typeDeclOf hself id lead ms).bind fun _ => .pure _)
      (.ite (.unsupported _) (.ite (.unsupported _) (composed_fieldOrMethodOf id lead ms)))

theorem composed_typeBodyOf {self : Parser TypeBody} (hself : Composed self) : Composed (typeBodyOf self) :=
  composed_fresh.bind fun _ => (composed_expect _).bind fun _ =>
    (composed_untilBrace (composed_memberOf hself)).bind fun _ =>
    (composed_expect _).bind fun _ => .pure _

theorem composed_typeBody : Composed typeBody := .fix fun _ => composed_typeBodyOf

theorem composed_typeDecl : Composed typeDecl :=
  composed_fresh.bind fun id => composed_takeLead.bind fun lead => composed_modifiers.bind fun ms =>
    composed_typeDeclOf composed_typeBody id lead ms

/-! ### Modules -/

theorem composed_package : Composed package :=
  composed_fresh.bind fun _ => composed_bump.bind fun _ => (composed_dotted false).bind fun _ =>
    (composed_expect ";").bind fun _ => .pure _

theorem composed_importDecl : Composed importDecl :=
  composed_fresh.bind fun _ => composed_bump.bind fun _ =>
    (Composed.whenAt (.map _ composed_bump)).bind fun _ =>
    (composed_dotted true).bind fun _ => (composed_expect ";").bind fun _ => .pure _

theorem composed_module : Composed module :=
  composed_fresh.bind fun _ => (Composed.whenAt composed_package).bind fun _ =>
    (Composed.many composed_importDecl).bind fun _ =>
    (Composed.many composed_typeDecl).bind fun _ => composed_takeLead.bind fun _ => .get fun _ => .pure _

end Parser

end Migration
