import Migration.Proofs.Grammar.Reading
import Migration.Proofs.Tree.Numbered

/-!
# The numbers that a parser gives

A parser takes a number for each node when it meets the node, so the numbers inside a node may be taken
before or after its own. What holds of every production is that the numbers in what it gives are those that
it has taken: each of the numbers between the next one before and the next one after, once (`Parser.Draws`).
The rules for the combinators are proved first. A production then draws its numbers because its parts do,
and the numbers of a whole module are those up to the next one (`Parser.draws_module`).

A look-ahead reads from a copy of the cursor and takes no numbers.
-/

namespace Migration

theorem length_freshIds (next : NodeId) (n : Nat) : (freshIds next n).length = n := by
  induction n generalizing next with
  | zero => rfl
  | succ n ih => rw [freshIds, List.length_cons, ih]

/-- Numbers from zero on are counted as far as they fit. -/
theorem freshIds_zero (n : Nat) : freshIds 0 n = (List.range n).map UInt32.ofNat := by
  induction n with
  | zero => rfl
  | succ n ih =>
    rw [freshIds_add, ih, List.range_succ, List.map_append, UInt32.zero_add]
    rfl

namespace Parser

variable {α β : Type} {old : List NodeId}

/-- The numbers in what the parser gives are some `old` ones, which were there before, and all that it has
taken, each once. -/
def Draws (p : Parser α) (old : List NodeId) (ids : α → List NodeId) : Prop :=
  ∀ c x c', p c = .ok (x, c') → ∃ n, (ids x).Perm (old ++ freshIds c.nextId n)
    ∧ c'.nextId = c.nextId + UInt32.ofNat n

/-- Two rows have the same numbers, each as often. -/
theorem perm_of_count {xs ys : List NodeId} (h : ∀ id, xs.count id = ys.count id) : xs.Perm ys :=
  List.perm_iff_count.mpr h

/-! ### Combinators -/

namespace Draws

theorem pure {a : α} {ids : α → List NodeId} (h : (ids a).Perm old) : Draws (pure a) old ids := by
  intro c x c' hrun
  obtain ⟨rfl, rfl⟩ := pure_ok.mp hrun
  exact ⟨0, by rwa [freshIds, List.append_nil], (UInt32.add_zero _).symm⟩

theorem congr {p : Parser α} {ids ids' : α → List NodeId} (h : Draws p old ids) (hids : ∀ x, ids x = ids' x) :
    Draws p old ids' := by
  rwa [← funext hids]

/-- The order in which numbers were there before does not matter. -/
theorem of_perm {p : Parser α} {old' : List NodeId} {ids : α → List NodeId} (h : Draws p old ids)
    (hperm : old.Perm old') : Draws p old' ids := by
  intro c x c' hrun
  obtain ⟨n, hids, hnext⟩ := h c x c' hrun
  exact ⟨n, hids.trans (hperm.append_right _), hnext⟩

/-- Numbers that were there before stay there. -/
theorem frame {p : Parser α} {ids : α → List NodeId} (h : Draws p [] ids) :
    Draws p old fun x => old ++ ids x := by
  intro c x c' hrun
  obtain ⟨n, hids, hnext⟩ := h c x c' hrun
  exact ⟨n, hids.append_left old, hnext⟩

/-- What is read next has the numbers of what was read before, and adds its own. -/
theorem trans {p : Parser α} {f : α → Parser β} {ids : α → List NodeId} {ids' : β → List NodeId}
    (hp : Draws p old ids) (hf : ∀ x, Draws (f x) (ids x) ids') : Draws (p >>= f) old ids' := by
  intro c y c' hrun
  obtain ⟨x, c1, h1, h2⟩ := bind_ok.mp hrun
  obtain ⟨n, hids, hnext⟩ := hp c x c1 h1
  obtain ⟨k, hids', hnext'⟩ := hf x c1 y c' h2
  refine ⟨n + k, ?_, by rw [hnext', hnext, next_add]⟩
  rw [hnext] at hids'
  rw [freshIds_add, ← List.append_assoc]
  exact hids'.trans (hids.append_right _)

theorem bind {p : Parser α} {f : α → Parser β} {ids : α → List NodeId} {ids' : β → List NodeId}
    (hp : Draws p [] ids) (hf : ∀ x, Draws (f x) (old ++ ids x) ids') : Draws (p >>= f) old ids' :=
  hp.frame.trans hf

theorem get {f : Cursor → Parser α} {ids : α → List NodeId} (h : ∀ c, Draws (f c) old ids) :
    Draws (MonadState.get >>= f) old ids :=
  fun c x c' hrun => h c c x c' hrun

theorem ite {b : Prop} [Decidable b] {p q : Parser α} {ids : α → List NodeId} (hp : Draws p old ids)
    (hq : Draws q old ids) : Draws (if b then p else q) old ids := by
  by_cases h : b
  · rwa [if_pos h]
  · rwa [if_neg h]

theorem bind_ite {b : Prop} [Decidable b] {p q : Parser α} {f : α → Parser β} {ids : α → List NodeId}
    {ids' : β → List NodeId} (hp : Draws p [] ids) (hq : Draws q [] ids)
    (hf : ∀ x, Draws (f x) (old ++ ids x) ids') : Draws (if b then p >>= f else q >>= f) old ids' :=
  .ite (hp.bind hf) (hq.bind hf)

theorem unexpected (expected : Expectation) (ids : α → List NodeId) :
    Draws (Parser.unexpected expected) old ids :=
  fun _ _ _ hrun => (unexpected_ok.mp hrun).elim

theorem unsupported (what : Construct) (ids : α → List NodeId) :
    Draws (Parser.unsupported what) old ids :=
  fun _ _ _ hrun => (unsupported_ok.mp hrun).elim

theorem map {p : Parser α} {f : α → β} {ids : β → List NodeId} (h : Draws p old fun x => ids (f x)) :
    Draws (f <$> p) old ids := by
  intro c y c' hrun
  obtain ⟨x, hx, rfl⟩ := map_ok.mp hrun
  exact h c x c' hx

/-- A parser that takes no numbers gives none. -/
theorem none {p : Parser α} (h : ∀ c x c', p c = .ok (x, c') → c'.nextId = c.nextId) :
    Draws p [] fun _ => [] :=
  fun c x c' hrun => ⟨0, .nil, by rw [h c x c' hrun]; exact (UInt32.add_zero _).symm⟩

end Draws

theorem draws_fresh : Draws fresh [] fun id => [id] := by
  intro c id c' hrun
  cases hrun
  exact ⟨1, .refl _, rfl⟩

theorem draws_bump : Draws bump [] fun _ => [] := by
  refine .none fun c t c' hrun => ?_
  cases hrun
  unfold Cursor.advance
  split <;> rfl

theorem draws_takeLead : Draws takeLead [] fun _ => [] := by
  refine .none fun c lead c' hrun => ?_
  cases hrun
  unfold Cursor.stripLead
  split <;> rfl

theorem draws_expect (text : String) : Draws (expect text) [] fun _ => [] :=
  .get fun _ => .ite (draws_bump.bind fun _ => .pure .nil) (.unexpected _ _)

theorem flatMap_padItems (ids : α → List NodeId) (first : α) (more : List (Trivia × α)) :
    (padItems first more).flatMap (ids ·.elem) = ids first ++ more.flatMap (ids ·.2) := by
  induction more generalizing first with
  | nil => simp [padItems]
  | cons q more ih =>
    obtain ⟨after, next⟩ := q
    rw [padItems, List.flatMap_cons, ih, List.flatMap_cons]

namespace Draws

theorem fix {F : Parser α → Parser α} {ids : α → List NodeId}
    (h : ∀ q, Draws q old ids → Draws (F q) old ids) : Draws (fix F) old ids := by
  have happrox : ∀ n, Draws (approx F n) old ids := by
    intro n
    induction n with
    | zero => exact unexpected _ ids
    | succ n ih => exact fun c => h _ ih c
  exact fun c => happrox _ c

theorem many {more : Cursor → Bool} {p : Parser α} {ids : α → List NodeId} (h : Draws p [] ids) :
    Draws (many more p) [] (List.flatMap ids) := by
  refine fix fun self hself => get fun c => ite (h.bind fun a => hself.bind fun as => pure ?_) (pure .nil)
  rw [List.flatMap_cons, List.nil_append]

theorem whenAt {text : String} {p : Parser α} {ids : α → List NodeId} (h : Draws p [] ids) :
    Draws (whenAt text p) [] fun o => o.toList.flatMap ids := by
  refine get fun c => ite (h.bind fun a => pure ?_) (pure .nil)
  simp

/-- Each round of a loop adds its numbers to those that are there. -/
theorem repeatWhile {more : Cursor → Bool} {step : α → Parser α} {ids : α → List NodeId}
    (h : ∀ a, Draws (step a) (ids a) ids) (a : α) : Draws (repeatWhile more step a) (ids a) ids := by
  have hloop : ∀ n a, Draws (repeatUpTo more step n a) (ids a) ids := by
    intro n
    induction n with
    | zero => exact fun a => pure (.refl _)
    | succ n ih =>
      exact fun a => get fun c => ite ((h a).trans ih) (pure (.refl _))
  exact fun c => hloop _ a c

theorem separated {item : Parser α} {ids : α → List NodeId} (h : Draws item [] ids) :
    Draws (separated item) [] fun ps => ps.flatMap (ids ·.elem) := by
  have hcomma : Draws (do let comma ← bump; return (comma.lead, ← item)) [] fun q => ids q.2 :=
    draws_bump.bind fun comma => h.bind fun a => pure (.refl _)
  refine h.bind fun first => (many hcomma).bind fun more => pure ?_
  rw [flatMap_padItems]
  exact .refl _

theorem listing {opening closing : String} {item : Parser α} {ids : α → List NodeId} (h : Draws item [] ids) :
    Draws (listing opening closing item) [] fun l => l.items.flatMap (ids ·.elem) := by
  refine (draws_expect opening).bind fun lead => get fun _ => ?_
  have hclose (items : List (Padded α)) :
      Draws (do let close ← expect closing; return ⟨lead, items, close⟩) (items.flatMap (ids ·.elem))
        fun l : Listing α => l.items.flatMap (ids ·.elem) :=
    (draws_expect closing).bind fun _ => pure (by simp)
  exact ite ((pure .nil).trans hclose) ((separated h).trans hclose)

end Draws

/-! ### Words and names -/

theorem draws_word : Draws word [] fun i => [i.id] :=
  draws_fresh.bind fun _ => draws_bump.bind fun _ => .pure (.refl _)

theorem draws_ident : Draws ident [] fun i => [i.id] :=
  .get fun _ => .ite draws_word (.unexpected _ _)

theorem draws_memberName : Draws memberName [] fun i => [i.id] :=
  .get fun _ => .ite draws_word draws_ident

theorem draws_nameStep (wildcards : Bool) : Draws (nameStep wildcards) [] fun _ => [] :=
  .get fun _ => .ite (.pure .nil) (.ite (.unsupported _ _)
    (.ite (.pure .nil) (.ite (.pure .nil) (.pure .nil))))

theorem draws_nameRest (wildcards : Bool) : Draws (nameRest wildcards) [] fun _ => [] := by
  refine .fix fun self hself => (draws_nameStep wildcards).bind fun step => ?_
  cases step with
  | stop => exact .pure .nil
  | wildcard => exact draws_bump.bind fun _ => draws_bump.bind fun _ => .pure .nil
  | segment text => exact draws_bump.bind fun _ => draws_bump.bind fun _ => hself.bind fun rest => .pure .nil

theorem draws_dotted (wildcards : Bool) : Draws (dotted wildcards) [] fun _ => [] :=
  .get fun _ => .ite (draws_bump.bind fun _ => (draws_nameRest wildcards).bind fun _ => .pure .nil)
    (.unexpected _ _)

theorem draws_modifier : Draws modifier [] fun i => [i.id] :=
  .get fun _ => draws_word.bind fun _ => .get fun _ => .ite (.unsupported _ _) (.pure (.refl _))

theorem draws_modifiers : Draws modifiers [] fun ms => ms.map (·.id) :=
  (Draws.many draws_modifier).congr fun _ => List.map_eq_flatMap.symm

/-! ### Types -/

theorem TypeName.idsAll_eq (ps : List (Padded TypeName)) :
    TypeName.idsAll ps = ps.flatMap (·.elem.ids) := by
  induction ps with
  | nil => rfl
  | cons p ps ih => rw [TypeName.idsAll, ih, List.flatMap_cons]

theorem draws_typeHead : Draws typeHead [] fun _ => [] :=
  .get fun _ => .ite (draws_bump.bind fun _ => .get fun _ => .ite (.unsupported _ _) (.pure .nil))
    ((draws_dotted false).bind fun _ => .pure .nil)

theorem draws_typeArgumentsOf {type : Parser TypeName} (h : Draws type [] TypeName.ids) :
    Draws (typeArgumentsOf type) [] TypeArguments.ids := by
  refine draws_fresh.bind fun id => (Draws.listing h).bind fun list => .pure ?_
  obtain ⟨lead, items, close⟩ := list
  rw [TypeArguments.ids, TypeName.idsAll_eq]
  exact .refl _

theorem draws_typeName : Draws typeName [] TypeName.ids := by
  refine .fix fun self hself => draws_fresh.bind fun id => draws_typeHead.bind fun x =>
    (Draws.whenAt (draws_typeArgumentsOf hself)).bind fun args => .get fun c =>
    .ite (.unsupported _ _) (.pure ?_)
  cases args <;> simp [TypeName.ids]

theorem draws_typeArguments : Draws typeArguments [] TypeArguments.ids := draws_typeArgumentsOf draws_typeName

theorem draws_typeClause : Draws typeClause [] TypeClause.ids := by
  refine draws_fresh.bind fun id => draws_bump.bind fun t =>
    (Draws.separated draws_typeName).bind fun types => .pure ?_
  rw [TypeClause.ids, TypeName.idsAll_eq]
  exact .refl _

/-! ### Expressions -/

theorem Expr.idsAll_eq (ps : List (Padded Expr)) : Expr.idsAll ps = ps.flatMap (·.elem.ids) := by
  induction ps with
  | nil => rfl
  | cons p ps ih => rw [Expr.idsAll, ih, List.flatMap_cons]

theorem draws_literal : Draws literal [] Expr.ids :=
  draws_fresh.bind fun _ => draws_bump.bind fun _ => .pure (.refl _)

theorem draws_negativeNumber : Draws negativeNumber [] Expr.ids :=
  .get fun _ => .ite (.unsupported _ _) (draws_fresh.bind fun _ => draws_bump.bind fun _ =>
    draws_bump.bind fun _ => .pure (.refl _))

section

variable {self : Parser Expr} (hself : Draws self [] Expr.ids)

include hself

theorem draws_argumentsOf : Draws (argumentsOf self) [] fun l => Expr.idsAll l.items :=
  (Draws.listing hself).congr fun l => (Expr.idsAll_eq l.items).symm

theorem draws_creationOf : Draws (creationOf self) [] Expr.ids := by
  refine draws_fresh.bind fun id => draws_bump.bind fun keyword => draws_typeName.bind fun type =>
    (draws_argumentsOf hself).bind fun args => .pure ?_
  obtain ⟨opened, items, closed⟩ := args
  exact .refl _

theorem draws_nameOrCallOf : Draws (nameOrCallOf self) [] Expr.ids := by
  refine .get fun c => .ite (draws_fresh.bind fun id => draws_ident.bind fun name =>
    (draws_argumentsOf hself).bind fun args => .pure ?_) (draws_ident.bind fun name => .pure (.refl _))
  obtain ⟨opened, items, closed⟩ := args
  exact .refl _

theorem draws_parensOf : Draws (parensOf self) [] Expr.ids :=
  draws_fresh.bind fun id => draws_bump.bind fun opening => hself.bind fun inner =>
    (draws_expect ")").bind fun close => .pure (by simp [Expr.ids])

theorem draws_primaryOf : Draws (primaryOf self) [] Expr.ids := by
  refine .get fun c => ?_
  dsimp only
  split
  · exact draws_literal
  · exact draws_literal
  · exact draws_literal
  · exact .ite draws_literal (.ite (draws_creationOf hself)
      (.ite (draws_nameOrCallOf hself) (.unexpected _ _)))
  · exact .ite (draws_parensOf hself) (.ite draws_negativeNumber (.unexpected _ _))
  · exact .unexpected _ _

theorem draws_selectionOf (target : Expr) : Draws (selectionOf self target) target.ids Expr.ids := by
  refine draws_fresh.bind fun id => draws_bump.bind fun dot => draws_memberName.bind fun name => .get fun c =>
    .ite ((draws_argumentsOf hself).bind fun args => .pure ?_) (.pure ?_)
  · obtain ⟨opened, items, closed⟩ := args
    refine perm_of_count fun a => ?_
    simp only [Expr.ids, List.count_append, List.count_cons, List.count_nil]
    omega
  · refine perm_of_count fun a => ?_
    simp only [Expr.ids, List.count_append, List.count_cons, List.count_nil]
    omega

theorem draws_operandOf : Draws (operandOf self) [] Expr.ids :=
  (draws_primaryOf hself).trans fun first => .repeatWhile (draws_selectionOf hself) first

end

theorem draws_operationOf {right : Parser Expr} (h : Draws right [] Expr.ids) (left : Expr) :
    Draws (operationOf right left) left.ids Expr.ids := by
  refine draws_fresh.bind fun id => draws_bump.bind fun op => h.bind fun right => .pure ?_
  refine perm_of_count fun a => ?_
  simp only [Expr.ids, List.count_append, List.count_cons, List.count_nil]
  omega

theorem draws_operationsOf {self : Parser Expr} (hself : Draws self [] Expr.ids)
    (levels : List (List String)) : Draws (operationsOf self levels) [] Expr.ids := by
  induction levels with
  | nil => exact draws_operandOf hself
  | cons level tighter ih => exact ih.trans fun first => .repeatWhile (draws_operationOf ih) first

theorem draws_expr : Draws expr [] Expr.ids :=
  .fix fun _ hself => (draws_operationsOf hself _).trans fun first =>
    .repeatWhile (draws_operationOf hself) first

/-! ### Statements -/

theorem draws_variableOf (id : NodeId) (lead : Trivia) (modifiers : List Ident) (type : TypeName)
    (name : Ident) : Draws (variableOf id lead modifiers type name)
      (id :: name.id :: modifiers.map (·.id) ++ type.ids) Variable.ids := by
  have hvalue : Draws initializer [] fun o => o.toList.flatMap (·.value.ids) :=
    .whenAt (draws_bump.bind fun sign => draws_expr.bind fun value => .pure (.refl _))
  exact hvalue.bind fun value => (draws_expect ";").bind fun semi => .pure (by simp [Variable.ids])

theorem draws_returnOf (id : NodeId) (lead : Trivia) :
    Draws (returnOf id lead) [id] fun s => [s.id] ++ s.value.toList.flatMap Expr.ids := by
  refine draws_bump.bind fun _ => .get fun _ => ?_
  have hsemi (value : Option Expr) : Draws (do let semi ← expect ";"; return { id, lead, value, semi })
      ([id] ++ value.toList.flatMap Expr.ids) fun s : Return => [s.id] ++ s.value.toList.flatMap Expr.ids :=
    (draws_expect ";").bind fun _ => .pure (by simp)
  have hvalue : Draws (some <$> expr) [] fun o => o.toList.flatMap Expr.ids :=
    .map (by simpa using draws_expr)
  exact .ite ((Draws.pure .nil).bind hsemi) (hvalue.bind hsemi)

theorem draws_localVarOf (id : NodeId) (lead : Trivia) : Draws (localVarOf id lead) [id] Variable.ids := by
  refine draws_modifiers.bind fun ms => draws_typeName.bind fun type => draws_ident.bind fun name =>
    (draws_variableOf id lead ms type name).of_perm (perm_of_count fun a => ?_)
  simp only [List.count_append, List.count_cons, List.count_nil]
  omega

theorem draws_exprStmtOf (id : NodeId) (lead : Trivia) :
    Draws (exprStmtOf id lead) [id] fun s => [s.id] ++ s.expr.ids :=
  draws_expr.bind fun e => (draws_expect ";").bind fun _ => .pure (by simp)

theorem Stmt.idsAll_eq (ss : List Stmt) : Stmt.idsAll ss = ss.flatMap Stmt.ids := by
  induction ss with
  | nil => rfl
  | cons s ss ih => rw [Stmt.idsAll, ih, List.flatMap_cons]

theorem draws_untilBrace {item : Parser α} {ids : α → List NodeId} (h : Draws item [] ids) :
    Draws (untilBrace item) [] (List.flatMap ids) :=
  .many (.get fun _ => .ite (.unexpected _ _) h)

theorem draws_statementOf {self : Parser Block} (hself : Draws self [] Block.ids) :
    Draws (statementOf self) [] Stmt.ids := by
  refine .get fun c => .ite (hself.bind fun b => .pure (.refl _)) (.ite (.unsupported _ _) ?_)
  refine draws_fresh.bind fun id => draws_takeLead.bind fun lead => .get fun d => ?_
  exact .ite ((draws_returnOf id lead).trans fun s => .pure (.refl _))
    (.ite ((draws_localVarOf id lead).trans fun v => .pure (.refl _))
      ((draws_exprStmtOf id lead).trans fun s => .pure (.refl _)))

theorem draws_block : Draws block [] Block.ids := by
  refine .fix fun self hself => draws_fresh.bind fun id => (draws_expect _).bind fun lead =>
    (draws_untilBrace (draws_statementOf hself)).bind fun statements =>
    (draws_expect _).bind fun close => .pure ?_
  rw [Block.ids, Stmt.idsAll_eq]
  simp

/-! ### Declarations -/

theorem draws_param : Draws param [] Param.ids := by
  refine draws_fresh.bind fun id => draws_takeLead.bind fun lead => draws_modifiers.bind fun ms =>
    draws_typeName.bind fun type => draws_ident.bind fun name => .pure (perm_of_count fun a => ?_)
  simp only [Param.ids, List.count_append, List.count_cons, List.count_nil]
  omega

theorem draws_methodBody : Draws methodBody [] MethodBody.ids :=
  .get fun _ => .ite (draws_block.bind fun _ => .pure (.refl _))
    (.ite (draws_bump.bind fun _ => .pure .nil) (.ite (.unsupported _ _) (.unexpected _ _)))

theorem draws_methodOf (id : NodeId) (lead : Trivia) (modifiers : List Ident) (returnType : Option TypeName)
    (name : Ident) : Draws (methodOf id lead modifiers returnType name)
      (id :: name.id :: modifiers.map (·.id) ++ returnType.toList.flatMap TypeName.ids) Method.ids :=
  (Draws.listing draws_param).bind fun _ => draws_methodBody.bind fun _ => .pure (.refl _)

theorem draws_fieldOrMethodOf (id : NodeId) (lead : Trivia) (modifiers : List Ident) :
    Draws (fieldOrMethodOf id lead modifiers) (id :: modifiers.map (·.id)) Member.ids := by
  have htype : Draws (some <$> typeName) [] fun o => o.toList.flatMap TypeName.ids :=
    .map (by simpa using draws_typeName)
  refine .get fun c => .bind_ite (.pure .nil) htype fun type => draws_ident.bind fun name => ?_
  have hold : (id :: name.id :: modifiers.map (·.id) ++ type.toList.flatMap TypeName.ids).Perm
      (id :: modifiers.map (·.id) ++ type.toList.flatMap TypeName.ids ++ [name.id]) := by
    refine perm_of_count fun a => ?_
    simp only [List.count_append, List.count_cons, List.count_nil]
    omega
  refine .get fun _ => .ite
    (.of_perm (.trans (draws_methodOf id lead modifiers type name) fun _ => .pure (.refl _)) hold) ?_
  cases type with
  | none => exact .unexpected _ _
  | some type =>
    rw [Option.toList_some, List.flatMap_singleton] at hold ⊢
    exact .of_perm (.trans (draws_variableOf id lead modifiers type name) fun _ => .pure (.refl _)) hold

/-! ### Types with members -/

theorem draws_typeKind : Draws typeKind [] fun _ => [] :=
  .get fun _ => .ite (draws_bump.bind fun _ => .pure .nil) (.ite (draws_bump.bind fun _ => .pure .nil)
    (.ite (.unsupported _ _) (.unexpected _ _)))

theorem draws_typeDeclOf {body : Parser TypeBody} (hbody : Draws body [] TypeBody.ids) (id : NodeId)
    (lead : Trivia) (modifiers : List Ident) :
    Draws (typeDeclOf body id lead modifiers) (id :: modifiers.map (·.id)) TypeDecl.ids := by
  refine draws_typeKind.bind fun kind => draws_ident.bind fun name =>
    (Draws.whenAt draws_typeArguments).bind fun typeParams =>
    (Draws.whenAt draws_typeClause).bind fun extending =>
    (Draws.whenAt draws_typeClause).bind fun implementing => hbody.bind fun body =>
    .pure (perm_of_count fun a => ?_)
  simp only [TypeDecl.ids, headerIds, List.count_append, List.count_cons, List.count_nil]
  omega

theorem Member.idsAll_eq (ms : List Member) : Member.idsAll ms = ms.flatMap Member.ids := by
  induction ms with
  | nil => rfl
  | cons m ms ih => rw [Member.idsAll, ih, List.flatMap_cons]

theorem draws_memberOf {self : Parser TypeBody} (hself : Draws self [] TypeBody.ids) :
    Draws (memberOf self) [] Member.ids := by
  refine draws_fresh.bind fun id => draws_takeLead.bind fun lead => draws_modifiers.bind fun ms =>
    .get fun _ => .ite ((draws_typeDeclOf hself id lead ms).trans fun d => .pure (.refl _))
      (.ite (.unsupported _ _) (.ite (.unsupported _ _) (draws_fieldOrMethodOf id lead ms)))

theorem draws_typeBody : Draws typeBody [] TypeBody.ids := by
  refine .fix fun self hself => draws_fresh.bind fun id => (draws_expect _).bind fun lead =>
    (draws_untilBrace (draws_memberOf hself)).bind fun members => (draws_expect _).bind fun close => .pure ?_
  rw [TypeBody.ids, Member.idsAll_eq]
  simp

theorem draws_typeDecl : Draws typeDecl [] TypeDecl.ids :=
  draws_fresh.bind fun id => draws_takeLead.bind fun lead => draws_modifiers.bind fun ms =>
    draws_typeDeclOf draws_typeBody id lead ms

/-! ### Modules -/

theorem draws_package : Draws package [] fun p => [p.id] :=
  draws_fresh.bind fun _ => draws_bump.bind fun _ => (draws_dotted false).bind fun _ =>
    (draws_expect ";").bind fun _ => .pure (.refl _)

theorem draws_importDecl : Draws importDecl [] fun i => [i.id] := by
  have hlead : Draws (Token.lead <$> bump) [] fun _ => [] := .map draws_bump
  have hstatic : Draws (whenAt "static" (Token.lead <$> bump)) [] fun _ => [] :=
    (Draws.whenAt hlead).congr fun o => by cases o <;> rfl
  exact draws_fresh.bind fun id => draws_bump.bind fun keyword => hstatic.bind fun staticLead =>
    (draws_dotted true).bind fun x => (draws_expect ";").bind fun semi => .pure (.refl _)

/-- **The numbers of a module are those that were taken**, each once. -/
theorem draws_module : Draws module [] Module.ids := by
  have hpackage : Draws (whenAt "package" package) [] fun o => o.toList.map (·.id) :=
    (Draws.whenAt draws_package).congr fun _ => List.map_eq_flatMap.symm
  have himports : Draws (many (·.isAt "import") importDecl) [] fun is => is.map (·.id) :=
    (Draws.many draws_importDecl).congr fun _ => List.map_eq_flatMap.symm
  exact draws_fresh.bind fun id => hpackage.bind fun package => himports.bind fun imports =>
    (Draws.many draws_typeDecl).bind fun types => draws_takeLead.bind fun eof => .get fun c =>
    .pure (by simp [Module.ids])

/-- The next number of a module is the one that would have been taken next. -/
theorem module_nextId {c c' : Cursor} {m : Module} (h : module c = .ok (m, c')) : m.nextId = c'.nextId := by
  simp only [module, get_bind, bind_ok, pure_ok] at h
  obtain ⟨_, _, _, _, _, _, _, _, _, _, _, _, _, _, _, rfl, rfl⟩ := h
  rfl

end Parser

/-- **A module is numbered without gaps**: its nodes have the first numbers, each once, and the next one
follows. -/
theorem ids_ofTokens {ts : Tokens} {m : Module} (h : Module.ofTokens ts = .ok m) :
    m.ids.Perm (freshIds 0 m.ids.length) ∧ m.nextId = UInt32.ofNat m.ids.length := by
  rw [Module.ofTokens] at h
  cases hrun : Parser.module (Cursor.ofTokens ts) with
  | error e =>
    rw [hrun] at h
    cases h
  | ok x =>
    rw [hrun] at h
    cases h
    obtain ⟨n, hids, hnext⟩ := Parser.draws_module _ _ _ hrun
    have hlength : x.1.ids.length = n := by rw [hids.length_eq, List.nil_append, length_freshIds]
    rw [hlength]
    exact ⟨hids, (Parser.module_nextId hrun).trans (hnext.trans (UInt32.zero_add _))⟩

end Migration
