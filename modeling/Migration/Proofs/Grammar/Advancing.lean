import Migration.Proofs.Grammar.SoundExpressions
import Migration.Proofs.Grammar.Standing

/-!
# How far a cursor gets

The end of the file is never read. Where a production asks for a token it has therefore read one, and so most
productions read at least one token whenever they succeed (`Parser.Consumes`). What they are asked to read
inside them is a parameter here, and need not read anything. From whatever place of a row such a production
starts, it gets to a later one (`Parser.Composed.advances`).
-/

namespace Migration

/-- The token is the end of the file, which has no text. -/
structure Token.IsEof (t : Token) : Prop where
  kind : t.kind = .eof
  text : t.text = ""

theorem Token.IsEof.is_eq_false {t : Token} (h : t.IsEof) {text : String} (hne : text ≠ "") :
    t.is text = false := by
  rw [Bool.eq_false_iff]
  intro his
  exact hne ((Token.text_of_is his).symm.trans h.text)

namespace Cursor

variable {c : Cursor} {ts : Tokens} {i : Nat}

theorem StandsAt.isEof (h : c.StandsAt ts i) (hts : ts.eof.IsEof) : c.eof.IsEof :=
  ⟨(congrArg Token.kind h.bare_eof).trans hts.kind, (congrArg Token.text h.bare_eof).trans hts.text⟩

/-! ### Tokens ahead -/

/-- A token that is asked for by its text is not the end of the file. -/
theorem ne_nil_of_isAt (hc : c.eof.IsEof) {text : String} (hne : text ≠ "") (h : c.isAt text = true) :
    c.rest ≠ [] := by
  intro hnil
  rw [isAt, peek, hnil, List.headD_nil, hc.is_eq_false hne] at h
  cases h

theorem ne_nil_of_peek_kind (hc : c.eof.IsEof) (h : c.peek.kind ≠ .eof) : c.rest ≠ [] := by
  intro hnil
  rw [peek, hnil, List.headD_nil] at h
  exact h hc.kind

theorem ne_nil_of_isName (hc : c.eof.IsEof) (h : c.peek.isName = true) : c.rest ≠ [] :=
  ne_nil_of_peek_kind hc (by rw [Parser.kind_of_isName h]; decide)

end Cursor

namespace Parser

variable {α β : Type} {ts : Tokens} {i m n : Nat}

/-! ### Consumption -/

/-- If the parser gives something at the cursor, it has read at least `n` tokens. -/
def ConsumesAt (n : Nat) (p : Parser α) (c : Cursor) : Prop :=
  ∀ a c', p c = .ok (a, c') → c'.eof.IsEof ∧ c'.rest.length + n ≤ c.rest.length

/-- Whenever the parser gives something, it has read at least `n` tokens. -/
def Consumes (n : Nat) (p : Parser α) : Prop := ∀ c, c.eof.IsEof → ConsumesAt n p c

theorem Composed.consumes {p : Parser α} (hp : Composed p) : Consumes 0 p := by
  intro c hc a c' hrun
  have hstart : c.StandsAt ⟨c.rest, c.eof⟩ 0 := ⟨Nat.zero_le _, c.nextId, .inl rfl⟩
  obtain ⟨j, -, hj⟩ := hp.standsAt hstart hrun
  refine ⟨hj.isEof hc, ?_⟩
  have hlength := hj.length_add
  dsimp only at hlength
  omega

/-- A parser that reads a token gets to a later place of the row. -/
theorem Composed.advances {p : Parser α} (hp : Composed p) (hone : Consumes 1 p) (hts : ts.eof.IsEof)
    {c c' : Cursor} {a : α} (hc : c.StandsAt ts i) (hrun : p c = .ok (a, c')) :
    ∃ j, i < j ∧ c'.StandsAt ts j := by
  obtain ⟨j, -, hj⟩ := hp.standsAt hc hrun
  have hless := (hone c (hc.isEof hts) a c' hrun).2
  have hi := hc.length_add
  have hj' := hj.length_add
  exact ⟨j, by omega, hj⟩

theorem ConsumesAt.bind {p : Parser α} {f : α → Parser β} {c : Cursor} (hp : ConsumesAt m p c)
    (hf : ∀ a c', c'.eof.IsEof → ConsumesAt n (f a) c') : ConsumesAt (m + n) (p >>= f) c := by
  intro b c' hrun
  obtain ⟨a, d, ha, hb⟩ := bind_ok.mp hrun
  obtain ⟨hd, hm⟩ := hp a d ha
  obtain ⟨hc', hn⟩ := hf a d hd b c' hb
  exact ⟨hc', by omega⟩

/-- What is read at first is read. -/
theorem ConsumesAt.andThen {p : Parser α} {f : α → Parser β} {c : Cursor} (hp : ConsumesAt n p c)
    (hf : ∀ a, Composed (f a)) : ConsumesAt n (p >>= f) c :=
  hp.bind fun a c' hc' => (hf a).consumes c' hc'

theorem ConsumesAt.ite {b : Prop} [Decidable b] {p q : Parser α} {c : Cursor}
    (hp : b → ConsumesAt n p c) (hq : ¬b → ConsumesAt n q c) : ConsumesAt n (if b then p else q) c := by
  split
  · next h => exact hp h
  · next h => exact hq h

theorem ConsumesAt.get {f : Cursor → Parser α} {c : Cursor} (h : ConsumesAt n (f c) c) :
    ConsumesAt n (MonadState.get >>= f) c := h

namespace Consumes

theorem andThen {p : Parser α} {f : α → Parser β} (hp : Consumes n p) (hf : ∀ a, Composed (f a)) :
    Consumes n (p >>= f) := fun c hc => (hp c hc).andThen hf

/-- What is read afterwards is read. -/
theorem after {p : Parser α} {f : α → Parser β} (hp : Composed p) (hf : ∀ a, Consumes n (f a)) :
    Consumes n (p >>= f) := by
  intro c hc
  rw [← Nat.zero_add n]
  exact (hp.consumes c hc).bind hf

theorem get {f : Cursor → Parser α} (h : ∀ c, c.eof.IsEof → ConsumesAt n (f c) c) :
    Consumes n (MonadState.get >>= f) := fun c hc => h c hc

theorem ite {b : Prop} [Decidable b] {p q : Parser α} (hp : Consumes n p) (hq : Consumes n q) :
    Consumes n (if b then p else q) := fun c hc => .ite (fun _ => hp c hc) fun _ => hq c hc

theorem after_ite {b : Prop} [Decidable b] {p q : Parser α} {f : α → Parser β} (hp : Composed p)
    (hq : Composed q) (hf : ∀ a, Consumes n (f a)) : Consumes n (if b then p >>= f else q >>= f) :=
  ite (after hp hf) (after hq hf)

theorem unexpected (expected : Expectation) : Consumes n (@unexpected α expected) :=
  fun _ _ _ _ hrun => by cases hrun

theorem unsupported (what : Construct) : Consumes n (@unsupported α what) :=
  fun _ _ _ _ hrun => by cases hrun

/-- A recursive production reads what it reads apart from what it re-enters itself for. -/
theorem fix {F : Parser α → Parser α} (hF : ∀ self, Composed self → Composed (F self))
    (h : ∀ self, Composed self → Consumes n (F self)) : Consumes n (fix F) :=
  fun c hc => h _ (.approx hF c.rest.length) c hc

end Consumes

/-! ### Single tokens -/

variable {c : Cursor}

theorem consumesAt_bump (hc : c.eof.IsEof) (hne : c.rest ≠ []) : ConsumesAt 1 bump c := by
  intro t c' hrun
  obtain ⟨u, rest, hrest⟩ := List.exists_cons_of_ne_nil hne
  rw [bump_cons hrest] at hrun
  cases hrun
  exact ⟨hc, by rw [hrest, List.length_cons]⟩

/-- A new number is no token, but what comes after it is one. -/
theorem consumesAt_fresh_bump {f : NodeId → Token → Parser α} (hc : c.eof.IsEof) (hne : c.rest ≠ [])
    (hf : ∀ id t, Composed (f id t)) : ConsumesAt 1 (fresh >>= fun id => bump >>= f id) c :=
  (consumesAt_bump (c := { c with nextId := c.nextId + 1 }) hc hne).andThen (hf c.nextId)

theorem consumes_expect {text : String} (hne : text ≠ "") : Consumes 1 (expect text) :=
  .get fun c hc => .ite
    (fun hat => (consumesAt_bump hc (Cursor.ne_nil_of_isAt hc hne hat)).andThen fun _ => .pure _)
    fun _ => Consumes.unexpected _ c hc

theorem consumesAt_word (hc : c.eof.IsEof) (hne : c.rest ≠ []) : ConsumesAt 1 word c :=
  consumesAt_fresh_bump hc hne fun _ _ => .pure _

/-! ### Words and names -/

theorem consumes_ident : Consumes 1 ident :=
  .get fun c hc => .ite (fun hname => consumesAt_word hc (Cursor.ne_nil_of_isName hc hname))
    fun _ => Consumes.unexpected _ c hc

theorem consumes_memberName : Consumes 1 memberName := by
  refine .get fun c hc => .ite (fun h => ?_) fun _ => consumes_ident c hc
  have hkind : c.peek.kind = .word := by
    simp only [Token.isReserved, Bool.and_eq_true, beq_iff_eq] at h
    exact h.1.1
  exact consumesAt_word hc (Cursor.ne_nil_of_peek_kind hc (by rw [hkind]; decide))

theorem consumes_dotted (wildcards : Bool) : Consumes 1 (dotted wildcards) :=
  .get fun c hc => .ite
    (fun hname => (consumesAt_bump hc (Cursor.ne_nil_of_isName hc hname)).andThen fun _ =>
      (composed_nameRest wildcards).bind fun _ => .pure _)
    fun _ => Consumes.unexpected _ c hc

theorem consumesAt_modifier (hc : c.eof.IsEof) (h : c.isAtModifier = true) : ConsumesAt 1 modifier c := by
  have hkind : c.peek.kind = .word := by
    simp only [Cursor.isAtModifier, Bool.and_eq_true, beq_iff_eq] at h
    exact h.1.1
  exact (consumesAt_word hc (Cursor.ne_nil_of_peek_kind hc (by rw [hkind]; decide))).andThen fun _ =>
    .get fun _ => .ite (.unsupported _) (.pure _)

/-! ### Types -/

theorem consumes_typeHead : Consumes 1 typeHead :=
  .get fun c hc => .ite
    (fun hat => (consumesAt_bump hc (Cursor.ne_nil_of_isAt hc (by decide) hat)).andThen fun _ =>
      .get fun _ => .ite (.unsupported _) (.pure _))
    fun _ => (consumes_dotted false).andThen (fun _ => .pure _) c hc

theorem consumes_typeNameOf {self : Parser TypeName} (h : Composed self) : Consumes 1 (typeNameOf self) :=
  .after composed_fresh fun _ => consumes_typeHead.andThen fun _ =>
    (Composed.whenAt (composed_typeArgumentsOf h)).bind fun _ =>
    .get fun _ => .ite (.unsupported _) (.pure _)

theorem consumes_typeName : Consumes 1 typeName :=
  .fix (fun _ => composed_typeNameOf) fun _ => consumes_typeNameOf

/-! ### Expressions -/

theorem consumesAt_literal (hc : c.eof.IsEof) (hne : c.rest ≠ []) : ConsumesAt 1 literal c :=
  consumesAt_fresh_bump hc hne fun _ _ => .pure _

theorem consumesAt_negativeNumber (hc : c.eof.IsEof) (hne : c.rest ≠ []) :
    ConsumesAt 1 negativeNumber c :=
  .get <| .ite (fun _ => Consumes.unsupported _ c hc) fun _ =>
    consumesAt_fresh_bump hc hne fun _ _ => composed_bump.bind fun _ => .pure _

section

variable {self : Parser Expr} (hself : Composed self)

include hself

theorem consumes_creationOf : Consumes 1 (creationOf self) :=
  .after composed_fresh fun _ => .after composed_bump fun _ => consumes_typeName.andThen fun _ =>
    (composed_argumentsOf hself).bind fun _ => .pure _

theorem consumes_nameOrCallOf : Consumes 1 (nameOrCallOf self) :=
  .get fun c hc => .ite
    (fun _ => Consumes.after composed_fresh (fun _ => consumes_ident.andThen fun _ =>
      (composed_argumentsOf hself).bind fun _ => .pure _) c hc)
    fun _ => consumes_ident.andThen (fun _ => .pure _) c hc

theorem consumesAt_parensOf (hc : c.eof.IsEof) (hne : c.rest ≠ []) : ConsumesAt 1 (parensOf self) c :=
  consumesAt_fresh_bump hc hne fun _ _ => hself.bind fun _ => (composed_expect ")").bind fun _ => .pure _

theorem consumes_primaryOf : Consumes 1 (primaryOf self) := by
  refine .get fun c hc => ?_
  have hne {kind : TokenKind} (hkind : c.peek.kind = kind) (h : kind ≠ .eof) : c.rest ≠ [] :=
    Cursor.ne_nil_of_peek_kind hc (by rwa [hkind])
  dsimp only
  split
  · next hkind => exact consumesAt_literal hc (hne hkind (by decide))
  · next hkind => exact consumesAt_literal hc (hne hkind (by decide))
  · next hkind => exact consumesAt_literal hc (hne hkind (by decide))
  · next hkind =>
    refine .ite (fun _ => consumesAt_literal hc (hne hkind (by decide))) fun _ => .ite (fun _ => ?_) fun _ =>
      .ite (fun _ => ?_) fun _ => Consumes.unexpected _ c hc
    · exact consumes_creationOf hself c hc
    · exact consumes_nameOrCallOf hself c hc
  · next hkind =>
    refine .ite (fun _ => ?_) fun _ => .ite (fun _ => ?_) fun _ => Consumes.unexpected _ c hc
    · exact consumesAt_parensOf hself hc (hne hkind (by decide))
    · exact consumesAt_negativeNumber hc (hne hkind (by decide))
  · exact Consumes.unexpected _ c hc

theorem consumes_operandOf : Consumes 1 (operandOf self) :=
  (consumes_primaryOf hself).andThen fun first => .repeatWhile (composed_selectionOf hself) first

theorem consumes_operationsOf (levels : List (List String)) : Consumes 1 (operationsOf self levels) := by
  induction levels with
  | nil => exact consumes_operandOf hself
  | cons level tighter ih =>
    exact ih.andThen fun first =>
      .repeatWhile (composed_operationOf (composed_operationsOf hself tighter)) first

theorem consumes_exprOf : Consumes 1 (exprOf self) :=
  (consumes_operationsOf hself _).andThen fun first => .repeatWhile (composed_operationOf hself) first

end

theorem consumes_expr : Consumes 1 expr :=
  .fix (fun _ => composed_exprOf) fun _ => consumes_exprOf

/-! ### Statements -/

theorem consumes_returnOf (id : NodeId) (lead : Trivia) : Consumes 1 (returnOf id lead) :=
  .after composed_bump fun _ => .get fun c hc =>
    Consumes.after_ite (.pure _) (.map _ composed_expr)
      (fun _ => (consumes_expect (by decide)).andThen fun _ => .pure _) c hc

theorem consumes_localVarOf (id : NodeId) (lead : Trivia) : Consumes 1 (localVarOf id lead) :=
  .after composed_modifiers fun ms => consumes_typeName.andThen fun type => composed_ident.bind fun name =>
    composed_variableOf id lead ms type name

theorem consumes_exprStmtOf (id : NodeId) (lead : Trivia) : Consumes 1 (exprStmtOf id lead) :=
  consumes_expr.andThen fun _ => (composed_expect ";").bind fun _ => .pure _

theorem consumes_statementOf {self : Parser Block} (hself : Consumes 1 self) :
    Consumes 1 (statementOf self) := by
  refine .get fun c hc => .ite (fun _ => hself.andThen (fun _ => .pure _) c hc) fun _ =>
    .ite (fun _ => Consumes.unsupported _ c hc) fun _ => ?_
  refine Consumes.after composed_fresh (fun id => .after composed_takeLead fun lead => ?_) c hc
  refine .get fun c hc => .ite (fun _ => ?_) fun _ => .ite (fun _ => ?_) fun _ => ?_
  · exact (consumes_returnOf id lead).andThen (fun _ => .pure _) c hc
  · exact (consumes_localVarOf id lead).andThen (fun _ => .pure _) c hc
  · exact (consumes_exprStmtOf id lead).andThen (fun _ => .pure _) c hc

theorem consumes_blockOf {self : Parser Block} (hself : Composed self) : Consumes 1 (blockOf self) :=
  .after composed_fresh fun _ => (consumes_expect (by decide)).andThen fun _ =>
    (composed_untilBrace (composed_statementOf hself)).bind fun _ =>
    (composed_expect _).bind fun _ => .pure _

theorem consumes_block : Consumes 1 block :=
  .fix (fun _ => composed_blockOf) fun _ => consumes_blockOf

/-! ### Declarations -/

theorem consumes_param : Consumes 1 param :=
  .after composed_fresh fun _ => .after composed_takeLead fun _ => .after composed_modifiers fun _ =>
    consumes_typeName.andThen fun _ => composed_ident.bind fun _ => .pure _

theorem consumes_fieldOrMethodOf (id : NodeId) (lead : Trivia) (modifiers : List Ident) :
    Consumes 1 (fieldOrMethodOf id lead modifiers) := by
  refine .get fun c hc => Consumes.after_ite (.pure _) (.map _ composed_typeName) (fun type => ?_) c hc
  refine consumes_ident.andThen fun name => .get fun _ =>
    .ite ((composed_methodOf id lead modifiers type name).bind fun _ => .pure _) ?_
  cases type with
  | none => exact .unexpected _
  | some type => exact (composed_variableOf id lead modifiers type name).bind fun _ => .pure _

theorem consumes_typeKind : Consumes 1 typeKind := by
  refine .get fun c hc => ?_
  have hkeyword {text : String} (kind : TypeKind) (hne : text ≠ "") (hat : c.isAt text = true) :
      ConsumesAt 1 (do return ((← bump).lead, kind)) c :=
    (consumesAt_bump hc (Cursor.ne_nil_of_isAt hc hne hat)).andThen fun _ => .pure _
  exact .ite (hkeyword _ (by decide)) fun _ => .ite (hkeyword _ (by decide)) fun _ =>
    .ite (fun _ => Consumes.unsupported _ c hc) fun _ => Consumes.unexpected _ c hc

theorem consumes_typeDeclOf {body : Parser TypeBody} (hbody : Composed body) (id : NodeId) (lead : Trivia)
    (modifiers : List Ident) : Consumes 1 (typeDeclOf body id lead modifiers) :=
  consumes_typeKind.andThen fun _ => composed_ident.bind fun _ =>
    (Composed.whenAt composed_typeArguments).bind fun _ =>
    (Composed.whenAt composed_typeClause).bind fun _ =>
    (Composed.whenAt composed_typeClause).bind fun _ => hbody.bind fun _ => .pure _

theorem consumes_memberOf {self : Parser TypeBody} (hself : Composed self) : Consumes 1 (memberOf self) := by
  refine .after composed_fresh fun id => .after composed_takeLead fun lead => .after composed_modifiers
    fun ms => .get fun c hc => .ite (fun _ => ?_) fun _ => .ite (fun _ => Consumes.unsupported _ c hc)
    fun _ => .ite (fun _ => Consumes.unsupported _ c hc) fun _ => ?_
  · exact (consumes_typeDeclOf hself id lead ms).andThen (fun _ => .pure _) c hc
  · exact consumes_fieldOrMethodOf id lead ms c hc

theorem consumes_typeDecl : Consumes 1 typeDecl :=
  .after composed_fresh fun id => .after composed_takeLead fun lead => .after composed_modifiers fun ms =>
    consumes_typeDeclOf composed_typeBody id lead ms

theorem consumes_importDecl : Consumes 1 importDecl :=
  .after composed_fresh fun _ => .after composed_bump fun _ =>
    .after (Composed.whenAt (.map _ composed_bump)) fun _ => (consumes_dotted true).andThen fun _ =>
    (composed_expect ";").bind fun _ => .pure _

end Parser

end Migration
