import Migration.Proofs.Grammar.Advancing

/-!
# Why reading ends

A recursive production is bounded by the number of tokens ahead, and so is every loop. The bounds are never
felt. A production that reads a token before it re-enters itself (`Parser.Guarded`) depends on itself only at
fewer tokens ahead, so that it is the same whatever it would do beyond the bound, and satisfies its equation
without one (`Parser.Founded`). A loop whose rounds read a token each is the loop without a bound likewise
(`Parser.Repeats`).

All recursion of the grammar is of this kind: types inside type arguments, expressions inside parentheses and
arguments, blocks inside blocks, types inside types, and the loops in between. With what the productions read
(`Parser.Consumes`) and where they stand (`Parser.Passes.standsAt`) this is all there is to say about their
progress (`Parser.progress`).
-/

namespace Migration.Parser

variable {α β : Type} {n : Nat}

/-! ### Agreement -/

/-- The parsers do the same wherever fewer than `n` tokens are ahead. -/
def AgreeBelow (n : Nat) (p q : Parser α) : Prop :=
  ∀ c, c.eof.IsEof → c.rest.length < n → p c = q c

namespace AgreeBelow

theorem refl (p : Parser α) : AgreeBelow n p p := fun _ _ _ => rfl

theorem of_succ {p q : Parser α} (h : AgreeBelow (n + 1) p q) : AgreeBelow n p q :=
  fun c hc hlt => h c hc (Nat.lt_succ_of_lt hlt)

theorem get {f g : Cursor → Parser α} (h : ∀ d, AgreeBelow n (f d) (g d)) :
    AgreeBelow n (MonadState.get >>= f) (MonadState.get >>= g) := fun c hc hlt => h c c hc hlt

theorem ite {b : Prop} [Decidable b] {p p' q q' : Parser α} (hp : AgreeBelow n p p')
    (hq : AgreeBelow n q q') : AgreeBelow n (if b then p else q) (if b then p' else q') := by
  split
  · exact hp
  · exact hq

end AgreeBelow

/-- Parsers that do the same at a cursor go on from the same cursor. -/
theorem bind_congr {p q : Parser α} {f g : α → Parser β} {c : Cursor} (hp : p c = q c)
    (hf : ∀ a c', p c = .ok (a, c') → f a c' = g a c') : (p >>= f) c = (q >>= g) c := by
  have hrun {r : Parser α} {h : α → Parser β} : (r >>= h) c = (r c >>= fun x => h x.1 x.2) := rfl
  rw [hrun, hrun, ← hp]
  cases hc : p c with
  | error e => rfl
  | ok x => exact hf x.1 x.2 hc

namespace AgreeBelow

theorem bind {p q : Parser α} {f g : α → Parser β} (hp : AgreeBelow n p q) (hcomposed : Composed p)
    (hf : ∀ a, AgreeBelow n (f a) (g a)) : AgreeBelow n (p >>= f) (q >>= g) := by
  intro c hc hlt
  refine bind_congr (hp c hc hlt) fun a c' hrun => ?_
  obtain ⟨hc', hless⟩ := hcomposed.consumes c hc a c' hrun
  exact hf a c' hc' (by omega)

/-- Behind a token that was read there is one less ahead. -/
theorem reading {p q : Parser α} {f g : α → Parser β} (hp : AgreeBelow (n + 1) p q) (hone : Consumes 1 p)
    (hf : ∀ a, AgreeBelow n (f a) (g a)) : AgreeBelow (n + 1) (p >>= f) (q >>= g) := by
  intro c hc hlt
  refine bind_congr (hp c hc hlt) fun a c' hrun => ?_
  obtain ⟨hc', hless⟩ := hone c hc a c' hrun
  exact hf a c' hc' (by omega)

theorem fix {F G : Parser α → Parser α} (hF : ∀ p, Composed p → Composed (F p))
    (h : ∀ p q, Composed p → AgreeBelow n p q → AgreeBelow n (F p) (G q)) :
    AgreeBelow n (fix F) (fix G) := by
  have happrox : ∀ k, AgreeBelow n (approx F k) (approx G k) := by
    intro k
    induction k with
    | zero => exact refl _
    | succ k ih => exact h _ _ (.approx hF k) ih
  exact fun c hc hlt => happrox (c.rest.length + 1) c hc hlt

theorem many {more : Cursor → Bool} {p q : Parser α} (h : AgreeBelow n p q) (hp : Composed p) :
    AgreeBelow n (many more p) (many more q) :=
  fix (fun _ hself => .get fun _ => .ite (hp.bind fun _ => hself.bind fun _ => .pure _) (.pure _))
    fun _ _ hself hagree => get fun _ => ite (h.bind hp fun _ => hagree.bind hself fun _ => refl _) (refl _)

theorem whenAt {text : String} {p q : Parser α} (h : AgreeBelow n p q) (hp : Composed p) :
    AgreeBelow n (whenAt text p) (whenAt text q) :=
  get fun _ => ite (h.bind hp fun _ => refl _) (refl _)

theorem repeatWhile {more : Cursor → Bool} {step step' : α → Parser α}
    (h : ∀ a, AgreeBelow n (step a) (step' a)) (hstep : ∀ a, Composed (step a)) (a : α) :
    AgreeBelow n (repeatWhile more step a) (repeatWhile more step' a) := by
  have hloop : ∀ k a, AgreeBelow n (repeatUpTo more step k a) (repeatUpTo more step' k a) := by
    intro k
    induction k with
    | zero => exact fun a => refl _
    | succ k ih => exact fun a => get fun _ => ite ((h a).bind (hstep a) ih) (refl _)
  exact fun c hc hlt => hloop (c.rest.length + 1) a c hc hlt

theorem separated {p q : Parser α} (h : AgreeBelow n p q) (hp : Composed p) :
    AgreeBelow n (separated p) (separated q) :=
  have hcomma : AgreeBelow n (commaThen p) (commaThen q) :=
    (refl bump).bind composed_bump fun _ => h.bind hp fun _ => refl _
  h.bind hp fun _ => (hcomma.many (composed_commaThen hp)).bind (.many (composed_commaThen hp)) fun _ => refl _

theorem listing {opening closing : String} {p q : Parser α} (h : AgreeBelow n p q) (hp : Composed p) :
    AgreeBelow n (listing opening closing p) (listing opening closing q) :=
  (refl (expect opening)).bind (composed_expect opening) fun _ => get fun _ =>
    ite (refl _) ((separated h hp).bind (.separated hp) fun _ => refl _)

theorem untilBrace {p q : Parser α} (h : AgreeBelow n p q) (hp : Composed p) :
    AgreeBelow n (untilBrace p) (untilBrace q) :=
  many (get fun _ => ite (refl _) h) (composed_beforeEnd hp)

end AgreeBelow

/-! ### Recursion -/

/-- The production reads a token before it re-enters itself: what it does depends on itself only where fewer
tokens are ahead. -/
def Guarded (F : Parser α → Parser α) : Prop :=
  ∀ n p q, Composed p → AgreeBelow n p q → AgreeBelow (n + 1) (F p) (F q)

/-- The production re-entered `n` times, and `other` instead when it is re-entered once more. -/
def approxBy (other : Parser α) (F : Parser α → Parser α) : Nat → Parser α
  | 0 => other
  | n + 1 => F (approxBy other F n)

/-- The production ends. -/
structure Founded (F : Parser α → Parser α) : Prop where
  /-- It reads a token before it re-enters itself. -/
  guarded : Guarded F
  /-- So it is re-entered no deeper than there are tokens ahead, and what would be done deeper has no
  effect. -/
  bounded : ∀ (other : Parser α) n c, c.eof.IsEof → c.rest.length < n → approxBy other F n c = fix F c
  /-- It is described by its equation, in which there is no bound. -/
  unfold : ∀ c, c.eof.IsEof → fix F c = F (fix F) c

theorem approxBy_unexpected (F : Parser α → Parser α) (n : Nat) :
    approxBy (unexpected .expression) F n = approx F n := by
  induction n with
  | zero => rfl
  | succ n ih =>
    rw [approxBy, ih]
    rfl

section

variable {F : Parser α → Parser α} (hguarded : Guarded F) (hF : ∀ p, Composed p → Composed (F p))

include hguarded hF

/-- Approximations do the same where fewer tokens are ahead than each of them has re-entries. -/
theorem agreeBelow_approxBy (other : Parser α) {k m n : Nat} (hm : k ≤ m) (hn : k ≤ n) :
    AgreeBelow k (approx F m) (approxBy other F n) := by
  induction k generalizing m n with
  | zero => exact fun _ _ hlt => absurd hlt (Nat.not_lt_zero _)
  | succ k ih =>
    obtain ⟨m, rfl⟩ := Nat.exists_eq_add_one_of_ne_zero (Nat.ne_zero_of_lt hm)
    obtain ⟨n, rfl⟩ := Nat.exists_eq_add_one_of_ne_zero (Nat.ne_zero_of_lt hn)
    exact hguarded k _ _ (.approx hF m) (ih (Nat.le_of_succ_le_succ hm) (Nat.le_of_succ_le_succ hn))

theorem Guarded.founded : Founded F where
  guarded := hguarded
  bounded other n c hc hlt :=
    (agreeBelow_approxBy hguarded hF other (Nat.le_refl _) hlt c hc (Nat.lt_succ_self _)).symm
  unfold c hc := by
    -- at fewer tokens than here, the approximation that the production is here is as good as any
    have hself : AgreeBelow c.rest.length (approx F c.rest.length) (fix F) := by
      intro d hd hlt
      rw [fix, ← approxBy_unexpected F (d.rest.length + 1)]
      exact agreeBelow_approxBy hguarded hF _ hlt (Nat.le_refl _) d hd (Nat.lt_succ_self _)
    exact hguarded _ _ _ (.approx hF _) hself c hc (Nat.lt_succ_self _)

end

/-! ### Loops -/

/-- The loop ends. -/
structure Repeats (more : Cursor → Bool) (step : α → Parser α) : Prop where
  /-- Each round reads a token. -/
  consumes : ∀ a c, c.eof.IsEof → more c = true → ConsumesAt 1 (step a) c
  /-- So there are no more rounds than tokens ahead: any greater bound is as good. -/
  bounded : ∀ n a c, c.eof.IsEof → c.rest.length < n → repeatUpTo more step n a c = repeatWhile more step a c
  /-- It is described by its equation, in which there is no bound. -/
  unfold : ∀ a c, c.eof.IsEof → repeatWhile more step a c =
    if more c then (step a >>= repeatWhile more step) c else .ok (a, c)

theorem repeats_of_consumes {more : Cursor → Bool} {step : α → Parser α}
    (h : ∀ a c, c.eof.IsEof → more c = true → ConsumesAt 1 (step a) c) : Repeats more step := by
  have hround (n : Nat) (a : α) (c : Cursor) : repeatUpTo more step (n + 1) a c =
      if more c then (step a >>= repeatUpTo more step n) c else .ok (a, c) := by
    show (if more c then (step a >>= repeatUpTo more step n) else pure a) c = _
    rw [ite_run]
    rfl
  have hbound (k : Nat) : ∀ m n a c, c.eof.IsEof → c.rest.length < k → k ≤ m → k ≤ n →
      repeatUpTo more step m a c = repeatUpTo more step n a c := by
    induction k with
    | zero => exact fun _ _ _ _ _ hlt => absurd hlt (Nat.not_lt_zero _)
    | succ k ih =>
      intro m n a c hc hlt hm hn
      obtain ⟨m, rfl⟩ := Nat.exists_eq_add_one_of_ne_zero (Nat.ne_zero_of_lt hm)
      obtain ⟨n, rfl⟩ := Nat.exists_eq_add_one_of_ne_zero (Nat.ne_zero_of_lt hn)
      rw [hround, hround]
      split
      · next hmore =>
        refine bind_congr rfl fun b c' hrun => ?_
        obtain ⟨hc', hless⟩ := h a c hc hmore b c' hrun
        exact ih m n b c' hc' (by omega) (Nat.le_of_succ_le_succ hm) (Nat.le_of_succ_le_succ hn)
      · rfl
  refine ⟨h, fun n a c hc hlt => hbound _ _ _ a c hc (Nat.lt_succ_self _) hlt (Nat.le_refl _), fun a c hc => ?_⟩
  rw [repeatWhile, hround]
  split
  · next hmore =>
    refine bind_congr rfl fun b c' hrun => ?_
    obtain ⟨hc', hless⟩ := h a c hc hmore b c' hrun
    exact hbound _ _ _ b c' hc' (Nat.lt_succ_self _) (by omega) (Nat.le_refl _)
  · rfl

/-- Items are read as long as more is asked for, and each of them is a token at least. -/
theorem founded_manyOf {more : Cursor → Bool} {p : Parser α} (hp : Composed p)
    (h : ∀ c, c.eof.IsEof → more c = true → ConsumesAt 1 p c) : Founded (manyOf more p) := by
  refine Guarded.founded (fun n self self' hself hagree => ?_) fun self hself =>
    .get fun _ => .ite (hp.bind fun _ => hself.bind fun _ => .pure _) (.pure _)
  intro c hc hlt
  show (if more c then (p >>= fun a => do return a :: (← self)) else pure []) c
    = (if more c then (p >>= fun a => do return a :: (← self')) else pure []) c
  split
  · next hmore =>
    refine bind_congr rfl fun a c' hrun => ?_
    obtain ⟨hc', hless⟩ := h c hc hmore a c' hrun
    exact hagree.bind hself (fun _ => .refl _) c' hc' (by omega)
  · rfl

/-! ### Names and lists -/

theorem founded_nameRestOf (wildcards : Bool) : Founded (nameRestOf wildcards) := by
  refine Guarded.founded (fun n self self' hself hagree => ?_) fun self hself =>
    composed_nameRestOf wildcards hself
  intro c hc hlt
  refine bind_congr rfl fun step c' hrun => ?_
  obtain ⟨rfl, rfl | ⟨hdot, -, -, ⟨rfl, -, -⟩ | ⟨rfl, -⟩⟩⟩ := nameStep_ok hrun
  · rfl
  · rfl
  · refine bind_congr rfl fun t d hbump => ?_
    obtain ⟨hd, hless⟩ := consumesAt_bump hc (Cursor.ne_nil_of_isAt hc (by decide) hdot) t d hbump
    exact (AgreeBelow.refl bump).bind composed_bump (fun _ => hagree.bind hself fun _ => .refl _) d hd
      (by omega)

theorem founded_modifiers : Founded (manyOf Cursor.isAtModifier modifier) :=
  founded_manyOf composed_modifier fun _ => consumesAt_modifier

theorem founded_commaThen {item : Parser α} (h : Composed item) :
    Founded (manyOf (·.isAt ",") (commaThen item)) :=
  founded_manyOf (composed_commaThen h) fun _ hc hat =>
    (consumesAt_bump hc (Cursor.ne_nil_of_isAt hc (by decide) hat)).andThen fun _ => h.bind fun _ => .pure _

theorem founded_untilBrace {item : Parser α} (h : Composed item) (hone : Consumes 1 item) :
    Founded (manyOf (!·.isAt "\x7d") (beforeEnd item)) :=
  founded_manyOf (composed_beforeEnd h) fun c hc _ =>
    .get (.ite (fun _ => Consumes.unexpected _ c hc) fun _ => hone c hc)

/-! ### Types -/

theorem AgreeBelow.typeArgumentsOf {p q : Parser TypeName} (h : AgreeBelow n p q) (hp : Composed p) :
    AgreeBelow n (typeArgumentsOf p) (typeArgumentsOf q) :=
  (refl fresh).bind composed_fresh fun _ => (listing h hp).bind (.listing hp) fun _ => refl _

theorem founded_typeNameOf : Founded typeNameOf := by
  refine Guarded.founded (fun n p q hp h => ?_) fun _ => composed_typeNameOf
  exact (AgreeBelow.refl fresh).bind composed_fresh fun _ =>
    (AgreeBelow.refl typeHead).reading consumes_typeHead fun _ =>
    (h.typeArgumentsOf hp).whenAt (composed_typeArgumentsOf hp) |>.bind
      (.whenAt (composed_typeArgumentsOf hp)) fun _ => .refl _

/-! ### Expressions -/

section

variable {p q : Parser Expr} (h : AgreeBelow n p q) (hp : Composed p)

include h hp

theorem AgreeBelow.argumentsOf : AgreeBelow n (argumentsOf p) (argumentsOf q) := listing h hp

theorem AgreeBelow.creationOf : AgreeBelow (n + 1) (creationOf p) (creationOf q) :=
  (refl fresh).bind composed_fresh fun _ => (refl bump).bind composed_bump fun _ =>
    (refl typeName).reading consumes_typeName fun _ =>
    (h.argumentsOf hp).bind (composed_argumentsOf hp) fun _ => refl _

theorem AgreeBelow.nameOrCallOf : AgreeBelow (n + 1) (nameOrCallOf p) (nameOrCallOf q) :=
  get fun _ => ite ((refl fresh).bind composed_fresh fun _ => (refl ident).reading consumes_ident fun _ =>
    (h.argumentsOf hp).bind (composed_argumentsOf hp) fun _ => refl _) (refl _)

theorem parensOf_congr {c : Cursor} (hc : c.eof.IsEof) (hne : c.rest ≠ []) (hlt : c.rest.length < n + 1) :
    parensOf p c = parensOf q c := by
  refine bind_congr rfl fun id d hfresh => bind_congr rfl fun t e hbump => ?_
  cases hfresh
  obtain ⟨he, hless⟩ := consumesAt_bump (c := { c with nextId := c.nextId + 1 }) hc hne t e hbump
  exact h.bind hp (fun _ => .refl _) e he (Nat.lt_of_succ_lt_succ (Nat.lt_of_le_of_lt hless hlt))

theorem AgreeBelow.primaryOf : AgreeBelow (n + 1) (primaryOf p) (primaryOf q) := by
  intro c hc hlt
  refine bind_congr rfl fun d c' hget => ?_
  cases hget
  dsimp only
  cases hkind : c.peek.kind with
  | number => rfl
  | string => rfl
  | character => rfl
  | word => exact (refl literal).ite ((h.creationOf hp).ite ((h.nameOrCallOf hp).ite (refl _))) c hc hlt
  | symbol =>
    have hne : c.rest ≠ [] := Cursor.ne_nil_of_peek_kind hc (by rw [hkind]; decide)
    simp only [ite_run, parensOf_congr h hp hc hne hlt]
  | eof => rfl

theorem AgreeBelow.selectionOf (target : Expr) : AgreeBelow n (selectionOf p target) (selectionOf q target) :=
  (refl fresh).bind composed_fresh fun _ => (refl bump).bind composed_bump fun _ =>
    (refl memberName).bind composed_memberName fun _ => get fun _ =>
    ite ((h.argumentsOf hp).bind (composed_argumentsOf hp) fun _ => refl _) (refl _)

theorem AgreeBelow.operandOf : AgreeBelow (n + 1) (operandOf p) (operandOf q) :=
  (h.primaryOf hp).reading (consumes_primaryOf hp) fun first =>
    repeatWhile (h.selectionOf hp) (composed_selectionOf hp) first

omit hp in
theorem AgreeBelow.operationOf (hp : Composed p) (left : Expr) :
    AgreeBelow n (operationOf p left) (operationOf q left) :=
  (refl fresh).bind composed_fresh fun _ => (refl bump).bind composed_bump fun _ =>
    h.bind hp fun _ => refl _

theorem AgreeBelow.operationsOf (levels : List (List String)) :
    AgreeBelow (n + 1) (operationsOf p levels) (operationsOf q levels) := by
  induction levels with
  | nil => exact h.operandOf hp
  | cons level tighter ih =>
    have hright := composed_operationsOf hp tighter
    exact ih.reading (consumes_operationsOf hp tighter) fun first =>
      repeatWhile (ih.of_succ.operationOf hright) (composed_operationOf hright) first

end

theorem founded_exprOf : Founded exprOf :=
  Guarded.founded (fun _ _ _ hp h => (h.operationsOf hp _).reading (consumes_operationsOf hp _) fun first =>
    .repeatWhile (h.operationOf hp) (composed_operationOf hp) first) fun _ => composed_exprOf

/-- Accesses and calls of members, whatever their arguments are. -/
theorem repeats_selectionOf {self : Parser Expr} (hself : Composed self) :
    Repeats (·.isAt ".") (selectionOf self) :=
  repeats_of_consumes fun _ c hc _ => Consumes.after composed_fresh (fun _ => .after composed_bump fun _ =>
    consumes_memberName.andThen fun _ => .get fun _ =>
      .ite ((composed_argumentsOf hself).bind fun _ => .pure _) (.pure _)) c hc

/-- Operators of a level, whatever their right operands are. -/
theorem repeats_operationOf (level : List String) {right : Parser Expr} (hright : Composed right) :
    Repeats (Cursor.isAtOperator level) (operationOf right) := by
  refine repeats_of_consumes fun _ c hc hat => ?_
  have hkind : c.peek.kind = .symbol := by
    simp only [Cursor.isAtOperator, Bool.and_eq_true, beq_iff_eq] at hat
    exact hat.1
  have hne : c.rest ≠ [] := Cursor.ne_nil_of_peek_kind hc (by rw [hkind]; decide)
  exact consumesAt_fresh_bump hc hne fun _ _ => hright.bind fun _ => .pure _

/-! ### Statements and declarations -/

theorem AgreeBelow.statementOf {p q : Parser Block} (h : AgreeBelow n p q) (hp : Composed p) :
    AgreeBelow n (statementOf p) (statementOf q) :=
  get fun _ => ite (h.bind hp fun _ => refl _) (refl _)

theorem founded_blockOf : Founded blockOf := by
  refine Guarded.founded (fun n p q hp h => ?_) fun _ => composed_blockOf
  exact (AgreeBelow.refl fresh).bind composed_fresh fun _ =>
    (AgreeBelow.refl (expect _)).reading (consumes_expect (by decide)) fun _ =>
    ((h.statementOf hp).untilBrace (composed_statementOf hp)).bind
      (composed_untilBrace (composed_statementOf hp)) fun _ => .refl _

theorem AgreeBelow.typeDeclOf {p q : Parser TypeBody} (h : AgreeBelow n p q) (hp : Composed p) (id : NodeId)
    (lead : Trivia) (modifiers : List Ident) :
    AgreeBelow n (typeDeclOf p id lead modifiers) (typeDeclOf q id lead modifiers) :=
  (refl typeKind).bind composed_typeKind fun _ => (refl ident).bind composed_ident fun _ =>
    (refl _).bind (.whenAt composed_typeArguments) fun _ =>
    (refl _).bind (.whenAt composed_typeClause) fun _ =>
    (refl _).bind (.whenAt composed_typeClause) fun _ => h.bind hp fun _ => refl _

theorem AgreeBelow.memberOf {p q : Parser TypeBody} (h : AgreeBelow n p q) (hp : Composed p) :
    AgreeBelow n (memberOf p) (memberOf q) :=
  (refl fresh).bind composed_fresh fun id => (refl takeLead).bind composed_takeLead fun lead =>
    (refl Parser.modifiers).bind composed_modifiers fun ms => get fun _ =>
    ite ((h.typeDeclOf hp id lead ms).bind (composed_typeDeclOf hp id lead ms) fun _ => refl _) (refl _)

theorem founded_typeBodyOf : Founded typeBodyOf := by
  refine Guarded.founded (fun n p q hp h => ?_) fun _ => composed_typeBodyOf
  exact (AgreeBelow.refl fresh).bind composed_fresh fun _ =>
    (AgreeBelow.refl (expect _)).reading (consumes_expect (by decide)) fun _ =>
    ((h.memberOf hp).untilBrace (composed_memberOf hp)).bind
      (composed_untilBrace (composed_memberOf hp)) fun _ => .refl _

/-! ### Modules -/

theorem founded_imports : Founded (manyOf (·.isAt "import") importDecl) :=
  founded_manyOf composed_importDecl fun c hc _ => consumes_importDecl c hc

theorem founded_types : Founded (manyOf (!·.atEnd) typeDecl) :=
  founded_manyOf composed_typeDecl fun c hc _ => consumes_typeDecl c hc

/-- At whatever place of whatever row, the parser gets to a later place of the row if it succeeds. -/
def Advances (p : Parser α) : Prop :=
  ∀ ts : Tokens, ts.eof.IsEof → ∀ i c a c', c.StandsAt ts i → p c = .ok (a, c') →
    ∃ j, i < j ∧ c'.StandsAt ts j

theorem Composed.advances_of_consumes {p : Parser α} (hp : Composed p) (hone : Consumes 1 p) : Advances p :=
  fun _ hts _ _ _ _ hc hrun => hp.advances hone hts hc hrun

/-- **Reading makes progress**, whatever the tokens are, as long as the end of the file is the last.

Types, expressions, blocks and bodies of types read a token before they re-enter themselves; they are what
their equations describe, and no bound on their recursion is felt. So it is with every loop: over the
segments of a name, modifiers, the items of a list, members that are selected, operators, statements,
members, imports and types. Whenever a type, an import, a member, a statement, a parameter, the name of a
type or an expression is read, a token is read at least. And whatever place is passed while a module is read,
also in a look ahead for a type from there, is one of the row: each token that is looked at from there is so
many places ahead, or the last. -/
theorem progress :
    (Founded typeNameOf ∧ Founded exprOf ∧ Founded blockOf ∧ Founded typeBodyOf) ∧
    ((∀ wildcards, Founded (nameRestOf wildcards)) ∧
      Founded (manyOf Cursor.isAtModifier modifier) ∧
      (∀ (α : Type) (item : Parser α), Composed item → Founded (manyOf (·.isAt ",") (commaThen item))) ∧
      (∀ operand : Parser Expr, Composed operand → Repeats (·.isAt ".") (selectionOf operand) ∧
        ∀ level, Repeats (Cursor.isAtOperator level) (operationOf operand)) ∧
      Founded (manyOf (!·.isAt "\x7d") (beforeEnd (statementOf block))) ∧
      Founded (manyOf (!·.isAt "\x7d") (beforeEnd (memberOf typeBody))) ∧
      Founded (manyOf (·.isAt "import") importDecl) ∧
      Founded (manyOf (!·.atEnd) typeDecl)) ∧
    (Advances typeDecl ∧ Advances (memberOf typeBody) ∧ Advances (statementOf block) ∧ Advances param ∧
      Advances typeName ∧ Advances expr ∧ Advances importDecl) ∧
    ∀ (ts : Tokens) (d : Cursor), Passes module (.ofTokens ts) d → ∀ e, e = d ∨ Passes typeName d e →
      ∃ i, e.StandsAt ts i ∧ ∀ n, ∃ t, ts.toList[min (i + n) ts.words.length]? = some t ∧
        (e.peekAt n).bare = t.bare := by
  refine ⟨⟨founded_typeNameOf, founded_exprOf, founded_blockOf, founded_typeBodyOf⟩,
    ⟨founded_nameRestOf, founded_modifiers, fun _ _ => founded_commaThen, fun operand h => ?_,
      founded_untilBrace (composed_statementOf composed_block) (consumes_statementOf consumes_block),
      founded_untilBrace (composed_memberOf composed_typeBody) (consumes_memberOf composed_typeBody),
      founded_imports, founded_types⟩,
    ⟨composed_typeDecl.advances_of_consumes consumes_typeDecl,
      (composed_memberOf composed_typeBody).advances_of_consumes (consumes_memberOf composed_typeBody),
      (composed_statementOf composed_block).advances_of_consumes (consumes_statementOf consumes_block),
      composed_param.advances_of_consumes consumes_param,
      composed_typeName.advances_of_consumes consumes_typeName,
      composed_expr.advances_of_consumes consumes_expr,
      composed_importDecl.advances_of_consumes consumes_importDecl⟩,
    fun ts d hd e he => ?_⟩
  · exact ⟨repeats_selectionOf h, fun level => repeats_operationOf level h⟩
  · obtain ⟨i, -, hi⟩ := hd.standsAt (Cursor.standsAt_ofTokens ts)
    rcases he with rfl | he
    · exact ⟨i, hi, hi.peekAt⟩
    · obtain ⟨j, -, hj⟩ := he.standsAt hi
      exact ⟨j, hj, hj.peekAt⟩

/-- A source that is refused, for there is no declaration in it. What it starts with is a type all the same,
with one among its arguments. -/
theorem progress_refused : ∃ ts t c,
    Tokens.ofSource "Map<K, List<V>> m" = .ok ts ∧ (module (.ofTokens ts)).toOption.isNone ∧
    typeName (.ofTokens ts) = .ok (t, c) ∧
    typeName (.ofTokens ts) = typeNameOf typeName (.ofTokens ts) ∧
    ∃ i, 0 < i ∧ c.StandsAt ts i := by
  have hscan : ∃ ts ∈ (Tokens.ofSource "Map<K, List<V>> m").toOption,
      (module (.ofTokens ts)).toOption.isNone ∧ (typeName (.ofTokens ts)).toOption.isSome
        ∧ ts.eof.kind = .eof ∧ ts.eof.text = "" := by decide +kernel
  obtain ⟨ts, hts, hmodule, htype, hkind, htext⟩ := hscan
  obtain ⟨⟨t, c⟩, hrun⟩ := Option.isSome_iff_exists.mp htype
  replace hrun := eq_ok_of_toOption hrun
  obtain ⟨⟨htypes, -⟩, -, ⟨-, -, -, -, hadvances, -⟩, -⟩ := progress
  exact ⟨ts, t, c, eq_ok_of_toOption hts, hmodule, hrun, htypes.unfold _ ⟨hkind, htext⟩,
    hadvances ts ⟨hkind, htext⟩ 0 _ t c (Cursor.standsAt_ofTokens ts) hrun⟩

end Migration.Parser
