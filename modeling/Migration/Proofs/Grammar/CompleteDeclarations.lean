import Migration.Proofs.Grammar.CompleteExpressions
import Migration.Proofs.Grammar.SoundDeclarations

/-!
# Statements, declarations and modules are read back

The converse of `SoundDeclarations`: at the tokens of a well-formed statement, member, type or module
the production takes the branch that the tree was made by, and gives the tree again, up to the
numbers of its nodes. `gives_module` is the statement for whole modules.
-/

namespace Migration.Parser

open Token (symbol)

variable {c : Cursor} {r : List Token} {tail : Trivia}

/-! ### First tokens -/

theorem headIs_prependLead (lead : Trivia) (ts : List Token) (text : String) :
    headIs (prependLead lead ts) text = headIs ts text := by
  cases ts <;> rfl

/-- The text starts no modifier and no type. -/
def isNoDeclarator (text : String) : Bool :=
  !isModifierText text && text != "?" && !isNameText text

theorem headIs_modifierTokens {ms : List Ident} (hms : ∀ m ∈ ms, isModifierText m.name = true)
    {rest : List Token} {text : String} (htext : isModifierText text = false)
    (hrest : headIs rest text = false) : headIs (modifierTokens ms ++ rest) text = false := by
  cases ms with
  | nil => exact hrest
  | cons m ms =>
    have hm := hms m List.mem_cons_self
    show (Token.word m.lead m.name).is text = false
    rw [Token.word_is, beq_eq_false_iff_ne]
    rintro rfl
    rw [hm] at htext
    cases htext

/-- The first token of modifiers with a type behind them. -/
theorem headIs_declared {ms : List Ident} {type : TypeName}
    (hms : ∀ m ∈ ms, isModifierText m.name = true) (htype : type.WellFormed) {text : String}
    (htext : isNoDeclarator text = true) (rest : List Token) :
    headIs (modifierTokens ms ++ (type.tokens ++ rest)) text = false := by
  simp only [isNoDeclarator, Bool.and_eq_true, Bool.not_eq_true', bne_iff_ne] at htext
  refine headIs_modifierTokens hms htext.1.1 ?_
  rw [headIs_append _ _ (typeTokens_ne_nil htype)]
  exact headIs_typeTokens htype htext.1.2 htext.2

/-! ### Modifiers, a type and a name -/

theorem headIs_ident {name : Ident} (hname : isNameText name.name = true) {text : String}
    (htext : isNameText text = false) : headIs (name.tokens ++ r) text = false := by
  show (Token.word name.lead name.name).is text = false
  rw [Token.word_is, beq_eq_false_iff_ne]
  rintro rfl
  rw [hname] at htext
  cases htext

theorem typeFollow_name {type : TypeName} {name : Ident} (hname : isNameText name.name = true)
    (hbound : type.isAny = true → name.name ≠ "super") : TypeFollow type (name.tokens ++ r) := by
  refine ⟨headIs_ident hname (by decide), headIs_ident hname (by decide),
    headIs_ident hname (by decide), fun hany => ⟨headIs_ident hname (by decide), ?_⟩⟩
  show (Token.word name.lead name.name).is "super" = false
  rw [Token.word_is, beq_eq_false_iff_ne]
  exact hbound hany

theorem gives_declared_modifiers {ms : List Ident} {type : TypeName} {name : Ident}
    (h : Declares ms type name)
    (hc : c.At (modifierTokens ms ++ (type.tokens ++ (name.tokens ++ r))) tail) :
    Gives modifiers c (type.tokens ++ (name.tokens ++ r)) tail fun ys =>
      ys.map Ident.unnumbered = ms.map Ident.unnumbered := by
  have hne := typeTokens_ne_nil h.type_ok
  refine gives_modifiers h.modifiers_ok ?_ ?_ ?_ hc
  · have hpos := List.length_pos_iff.mpr hne
    rw [← List.append_assoc, startsModifier_append _ (by simp [Ident.tokens]; omega)]
    exact h.unmodified
  · rw [headIs_append _ _ hne]
    exact headIs_typeTokens h.type_ok (by decide) (by decide)
  · rw [headIs_append _ _ hne]
    exact headIs_typeTokens h.type_ok (by decide) (by decide)

/-- Modifiers, a type, a name and what is read after them. -/
theorem gives_declared {β : Type} {k : List Ident → TypeName → Ident → Parser β} {P : β → Prop}
    {ms : List Ident} {type : TypeName} {name : Ident} {r' : List Token}
    (h : Declares ms type name)
    (hc : c.At (modifierTokens ms ++ (type.tokens ++ (name.tokens ++ r))) tail)
    (hk : ∀ ms' type' name' c', ms'.map Ident.unnumbered = ms.map Ident.unnumbered →
      type'.unnumbered = type.unnumbered → name'.unnumbered = name.unnumbered → c'.At r tail →
      Gives (k ms' type' name') c' r' tail P) :
    Gives (do
      let ms ← modifiers
      let type ← typeName
      let name ← ident
      k ms type name) c r' tail P := by
  refine (gives_declared_modifiers h hc).bind fun ms' c1 hc1 hms => ?_
  refine (gives_typeName h.type_ok (typeFollow_name h.name_ok h.unbounded) hc1).bind
    fun type' c2 hc2 htype => ?_
  exact (gives_ident h.name_ok hc2).bind fun name' c3 hc3 hname => hk ms' type' name' c3 hms htype hname hc3

/-! ### Statements -/

theorem gives_initializer {o : Option Initializer}
    (ho : ∀ i ∈ o, i.value.WellFormed false) {semi : Trivia}
    (hc : c.At (optionTokens Initializer.tokens o ++ (symbol semi ";" :: r)) tail) :
    Gives initializer c (symbol semi ";" :: r) tail fun y =>
      y.map Initializer.unnumbered = o.map Initializer.unnumbered := by
  refine gives_whenAt (by decide) hc (fun _ => by simp) fun i hi => ⟨by simp [Initializer.tokens], ?_⟩
  intro hat
  refine (gives_bump hat).bind fun t c1 hc1 ht => ?_
  refine (gives_expr (ho i hi) (follow_end (by decide) semi) hc1).bind fun e c2 hc2 he => ?_
  refine Gives.pure hc2 ?_
  have hlead : t.lead = i.lead := congrArg Token.lead ht
  simp [Initializer.unnumbered, hlead, he]

/-- The rest of a variable, from the sign behind its name on. -/
theorem gives_variableOf {v : Variable} (hv : ∀ i ∈ v.value, i.value.WellFormed false)
    {id : NodeId} {ms : List Ident} {type : TypeName} {name : Ident}
    (hms : ms.map Ident.unnumbered = v.modifiers.map Ident.unnumbered)
    (htype : type.unnumbered = v.type.unnumbered) (hname : name.unnumbered = v.name.unnumbered)
    (hc : c.At (optionTokens Initializer.tokens v.value ++ (symbol v.semi ";" :: r)) tail) :
    Gives (variableOf id v.lead ms type name) c r tail fun y => y.unnumbered = v.unnumbered := by
  refine (gives_initializer hv hc).bind fun value c1 hc1 hvalue => ?_
  refine (gives_expect (by decide) hc1).bind fun semi c2 hc2 hsemi => Gives.pure hc2 ?_
  simp [Variable.unnumbered, hms, htype, hname, hvalue, hsemi]

theorem gives_localVarOf {v : Variable} (hv : v.WellFormed) {id : NodeId}
    (hc : c.At (v.bareTokens ++ r) tail) :
    Gives (localVarOf id v.lead) c r tail fun y => y.unnumbered = v.unnumbered := by
  rw [Variable.bareTokens_eq, Variable.bodyTokens] at hc
  simp only [List.append_assoc, List.singleton_append] at hc
  exact gives_declared hv.declares hc fun ms type name c1 hms htype hname hc1 =>
    gives_variableOf hv.value hms htype hname hc1

theorem gives_returnOf {s : Return} (hs : ∀ e ∈ s.value, e.WellFormed false) {id : NodeId}
    {lead : Trivia}
    (hc : c.At (.word lead "return" :: (optionTokens Expr.tokens s.value
      ++ (symbol s.semi ";" :: r))) tail) :
    Gives (returnOf id s.lead) c r tail fun y =>
      (Stmt.ret y).unnumbered = (Stmt.ret s).unnumbered := by
  obtain ⟨sid, slead, value, semi⟩ := s
  refine (gives_bump hc).bind fun t c1 hc1 _ => Gives.get ?_
  have hdone : ∀ value' c2, c2.At (symbol semi ";" :: r) tail →
      value'.map Expr.unnumbered = value.map Expr.unnumbered →
      Gives (do let semi ← expect ";"; return (⟨id, slead, value', semi⟩ : Return)) c2 r tail
        fun y => (Stmt.ret y).unnumbered = (Stmt.ret ⟨sid, slead, value, semi⟩).unnumbered := by
    intro value' c2 hc2 hvalue
    refine (gives_expect (by decide) hc2).bind fun semi' c3 hc3 hsemi => Gives.pure hc3 ?_
    simp [Stmt.unnumbered, hvalue, hsemi]
  cases value with
  | none =>
    refine Gives.ite_pos ?_ (Gives.bind (Gives.pure hc1 ?_) hdone)
    · rw [hc1.isAt (by decide)]
      simp [optionTokens]
    · rfl
  | some e =>
    have he : e.WellFormed false := hs e rfl
    refine Gives.ite_neg ?_ (Gives.bind ?_ hdone)
    · rw [hc1.isAt (by decide)]
      show ¬ headIs (e.tokens ++ _) ";" = true
      rw [headIs_append _ _ (Expr.tokens_ne_nil e), headIs_exprTokens he (by decide)]
      decide
    · exact (gives_expr he (follow_end (by decide) semi) hc1).map fun y hy => by simp [hy]

theorem gives_exprStmtOf {s : ExprStmt} (hs : s.expr.WellFormed false) {id : NodeId}
    (hc : c.At (s.expr.tokens ++ (symbol s.semi ";" :: r)) tail) :
    Gives (exprStmtOf id s.lead) c r tail fun y =>
      (Stmt.expr y).unnumbered = (Stmt.expr s).unnumbered := by
  refine (gives_expr hs (follow_end (by decide) s.semi) hc).bind fun e c1 hc1 he => ?_
  refine (gives_expect (by decide) hc1).bind fun semi c2 hc2 hsemi => Gives.pure hc2 ?_
  simp [Stmt.unnumbered, he, hsemi]

/-- What the production for statements does after it has taken the trivia. -/
def bareStatement (id : NodeId) (lead : Trivia) : Parser Stmt := do
  let c ← get
  if c.isAt "return" then return .ret (← returnOf id lead)
  else if c.isAtLocalVar then return .localVar (← localVarOf id lead)
  else return .expr (← exprStmtOf id lead)

/-- At a token that starts no block and no statement that is not accepted, the trivia is taken. -/
theorem gives_statementOf {self : Parser Block} {s : Stmt} {lead : Trivia} {ts : List Token}
    (hbrace : headIs ts "\x7b" = false)
    (hunsupported : ∀ text ∈ unsupportedStatements, headIs ts text = false)
    (hne : ts ≠ []) (hbare : HeadBare ts)
    (hrest : ∀ id c, c.At (ts ++ r) tail →
      Gives (bareStatement id lead) c r tail fun y => y.unnumbered = s.unnumbered)
    (hc : c.At (prependLead lead ts ++ r) tail) :
    Gives (statementOf self) c r tail fun y => y.unnumbered = s.unnumbered := by
  have hhead : ∀ text, headIs (prependLead lead ts ++ r) text = headIs ts text := by
    intro text
    rw [headIs_append _ _ (by simpa using hne), headIs_prependLead]
  refine Gives.get (Gives.ite_neg ?_ (Gives.ite_neg ?_ ?_))
  · rw [hc.isAt (by decide), hhead, hbrace]
    decide
  · rw [hc.isAtAny (by decide), List.any_eq_true]
    rintro ⟨text, htext, hat⟩
    rw [hhead, hunsupported text htext] at hat
    cases hat
  · refine (gives_fresh hc).bind fun id c1 hc1 _ => ?_
    refine (gives_takeLead_prepend hne hbare hc1).bind fun lead' c2 hc2 hlead => ?_
    subst hlead
    exact hrest id c2 hc2

theorem gives_statement_expr {self : Parser Block} {s : ExprStmt}
    (hs : Stmt.WellFormed (.expr s)) (hc : c.At (s.tokens ++ r) tail) :
    Gives (statementOf self) c r tail fun y => y.unnumbered = (Stmt.expr s).unnumbered := by
  obtain ⟨hbare, hwf, hlooks⟩ := hs
  have hne := Expr.tokens_ne_nil s.expr
  have hhead : ∀ text, isExprStartText text = false →
      headIs (s.expr.tokens ++ [symbol s.semi ";"]) text = false := by
    intro text htext
    rw [headIs_append _ _ hne]
    exact headIs_exprTokens hwf htext
  have hall : ∀ text ∈ unsupportedStatements, isExprStartText text = false := by decide
  refine gives_statementOf (hhead _ (by decide)) (fun text ht => hhead _ (hall text ht)) (by simp)
    ((headBare_append _ hne).mpr hbare) (fun id c hc => Gives.get ?_) hc
  have hc' : c.At (s.expr.tokens ++ (symbol s.semi ";" :: r)) tail := by simpa using hc
  refine Gives.ite_neg ?_ (Gives.ite_neg ?_ ?_)
  · rw [hc.isAt (by decide), headIs_append _ _ (by simp), hhead _ (by decide)]
    decide
  · rw [isAtLocalVar_iff hc', looksVariable_append]
    exact hlooks
  · exact (gives_exprStmtOf hwf hc').bind fun y c1 hc1 hy => Gives.pure hc1 hy

theorem gives_statement_localVar {self : Parser Block} {v : Variable}
    (hv : Stmt.WellFormed (.localVar v)) (hc : c.At (v.tokens ++ r) tail) :
    Gives (statementOf self) c r tail fun y => y.unnumbered = (Stmt.localVar v).unnumbered := by
  obtain ⟨hwf, hlooks⟩ := hv
  obtain ⟨hbare, hmods, htype, _⟩ := hwf.declares
  have htokens : v.tokens = prependLead v.lead v.bareTokens := by
    rw [Variable.bareTokens, Variable.tokens, Variable.tokens, prependLead_empty]
  have hrow : v.bareTokens = modifierTokens v.modifiers ++ (v.type.tokens ++ (v.name.tokens
      ++ (optionTokens Initializer.tokens v.value ++ [symbol v.semi ";"]))) := by
    rw [Variable.bareTokens_eq, Variable.bodyTokens]
    simp
  have hhead : ∀ text, isNoDeclarator text = true → headIs v.bareTokens text = false := by
    intro text htext
    rw [hrow]
    exact headIs_declared hmods htype htext _
  have hall : ∀ text ∈ unsupportedStatements, isNoDeclarator text = true := by decide
  have hne : v.bareTokens ≠ [] := by rw [Variable.bareTokens_eq]; simp
  rw [htokens] at hc
  refine gives_statementOf (hhead _ (by decide)) (fun text ht => hhead _ (hall text ht)) hne ?_
    (fun id c hc => Gives.get ?_) hc
  · rw [hrow, ← List.append_assoc, headBare_append _ (by simp [typeTokens_ne_nil htype])]
    exact hbare
  · refine Gives.ite_neg ?_ (Gives.ite_pos ?_ ?_)
    · rw [hc.isAt (by decide), headIs_append _ _ hne, hhead _ (by decide)]
      decide
    · rw [isAtLocalVar_iff hc]
      rw [Variable.bareTokens_eq] at hlooks ⊢
      rw [List.append_assoc]
      exact (looksVariable_append v.semi).mpr hlooks
    · refine (gives_localVarOf hwf hc).bind fun y c1 hc1 hy => Gives.pure hc1 ?_
      simp [Stmt.unnumbered, hy]

theorem gives_statement_ret {self : Parser Block} {s : Return}
    (hs : Stmt.WellFormed (.ret s)) (hc : c.At (s.tokens ++ r) tail) :
    Gives (statementOf self) c r tail fun y => y.unnumbered = (Stmt.ret s).unnumbered := by
  have htokens : s.tokens = prependLead s.lead (.word "" "return" ::
      (optionTokens Expr.tokens s.value ++ [symbol s.semi ";"])) := by
    simp [Return.tokens, prependLead, Token.word]
  have hhead : ∀ text, "return" ≠ text → headIs (.word "" "return" ::
      (optionTokens Expr.tokens s.value ++ [symbol s.semi ";"])) text = false := by
    intro text htext
    simpa using htext
  have hall : ∀ text ∈ unsupportedStatements, "return" ≠ text := by decide
  rw [htokens] at hc
  refine gives_statementOf (hhead _ (by decide)) (fun text ht => hhead _ (hall text ht)) (by simp) ?_
    (fun id c hc => Gives.get (Gives.ite_pos ?_ ?_)) hc
  · intro t ht
    cases ht
    rfl
  · rw [hc.isAt (by decide)]
    simp
  · have hc' : c.At (.word "" "return" :: (optionTokens Expr.tokens s.value
        ++ (symbol s.semi ";" :: r))) tail := by simpa using hc
    exact (gives_returnOf hs hc').bind fun y c1 hc1 hy => Gives.pure hc1 hy

theorem stmtTokens_head {s : Stmt} (hs : s.WellFormed) :
    s.tokens ≠ [] ∧ headIs s.tokens "\x7d" = false := by
  cases s with
  | expr s =>
    have hne := Expr.tokens_ne_nil s.expr
    refine ⟨by simp [Stmt.tokens, ExprStmt.tokens], ?_⟩
    rw [Stmt.tokens, ExprStmt.tokens, headIs_prependLead, headIs_append _ _ hne]
    exact headIs_exprTokens hs.2.1 (by decide)
  | localVar v =>
    obtain ⟨_, hmods, htype, _⟩ := hs.1.declares
    refine ⟨by simp [Stmt.tokens, Variable.tokens], ?_⟩
    rw [Stmt.tokens, Variable.tokens, headIs_prependLead]
    exact headIs_declared hmods htype (by decide) _
  | ret s => simp [Stmt.tokens, Return.tokens]
  | block b =>
    obtain ⟨id, lead, statements, close⟩ := b
    simp [Stmt.tokens, Block.tokens]

/-- Items up to a closing brace. -/
theorem gives_untilBrace {α β : Type} {item : Parser α} {tokens : α → List Token} {f : α → β}
    {xs : List α} {bound : Nat} {close : Trivia}
    (hitem : ∀ x ∈ xs, ∀ c r, c.rest.length < bound → c.At (tokens x ++ r) tail →
      Gives item c r tail fun y => f y = f x)
    (hhead : ∀ x ∈ xs, tokens x ≠ [] ∧ headIs (tokens x) "\x7d" = false)
    (hbound : c.rest.length < bound)
    (hc : c.At (xs.flatMap tokens ++ (symbol close "\x7d" :: r)) tail) :
    Gives (untilBrace item) c (symbol close "\x7d" :: r) tail fun ys => ys.map f = xs.map f := by
  have hone : ∀ x ∈ xs, ∀ c r, c.rest.length < bound → c.At (tokens x ++ r) tail → True →
      (!c.isAt "\x7d") = true ∧
        Gives (do if (← get).atEnd then unexpected (.token "\x7d") else item) c r tail fun y =>
          f y = f x := by
    intro x hx c r hb hc _
    obtain ⟨hne, hbrace⟩ := hhead x hx
    refine ⟨?_, Gives.get (Gives.ite_neg ?_ (hitem x hx c r hb hc))⟩
    · rw [hc.isAt (by decide), headIs_append _ _ hne, hbrace]
      rfl
    · have hlen := hc.length
      have hpos := List.length_pos_iff.mpr hne
      rw [List.length_append] at hlen
      rw [Cursor.atEnd, List.isEmpty_iff]
      intro hnil
      rw [hnil, List.length_nil] at hlen
      omega
  refine gives_many hone (fun x hx => ⟨(hhead x hx).1, fun _ => trivial⟩) trivial (fun c hc => ?_)
    hbound hc
  rw [hc.isAt (by decide)]
  simp

/-- A block, given that the blocks inside it are accepted. -/
theorem gives_blockOf {self : Parser Block} {n : Nat}
    (hself : ∀ (b : Block) c r, c.rest.length < n → (b.WellFormed ∧ c.At (b.tokens ++ r) tail) →
      Gives self c r tail fun y => y.unnumbered = b.unnumbered)
    (b : Block) (c : Cursor) (r : List Token) (hn : c.rest.length < n + 1)
    (hb : b.WellFormed ∧ c.At (b.tokens ++ r) tail) :
    Gives (blockOf self) c r tail fun y => y.unnumbered = b.unnumbered := by
  obtain ⟨hwf, hc⟩ := hb
  obtain ⟨bid, lead, statements, close⟩ := b
  have hall := (Stmt.wellFormedAll_iff statements).mp hwf
  have hc0 : c.At (symbol lead "\x7b" :: (statements.flatMap Stmt.tokens
      ++ (symbol close "\x7d" :: r))) tail := by
    simpa [Block.tokens, Stmt.tokensAll_eq] using hc
  refine (gives_fresh hc0).bind fun id c1 hc1 _ => ?_
  refine (gives_expect (by decide) hc1).bind fun lead' c2 hc2 hlead => ?_
  have hlen0 := hc0.length.trans hc1.length.symm
  have hlen := hc1.length_cons hc2
  have hitem : ∀ s ∈ statements, ∀ c r, c.rest.length < n → c.At (s.tokens ++ r) tail →
      Gives (statementOf self) c r tail fun y => y.unnumbered = s.unnumbered := by
    intro s hs c r hb hc
    have hswf := hall s hs
    cases s with
    | expr s => exact gives_statement_expr hswf hc
    | localVar v => exact gives_statement_localVar hswf hc
    | ret s => exact gives_statement_ret hswf hc
    | block b =>
      refine Gives.get (Gives.ite_pos ?_ ((hself b c r hb ⟨hswf, hc⟩).bind fun y c1 hc1 hy =>
        Gives.pure hc1 ?_))
      · obtain ⟨id, lead, statements, close⟩ := b
        rw [hc.isAt (by decide)]
        simp [Stmt.tokens, Block.tokens]
      · simp [Stmt.unnumbered, hy]
  refine (gives_untilBrace hitem (fun s hs => stmtTokens_head (hall s hs)) (by omega) hc2).bind
    fun ss c3 hc3 hss => ?_
  refine (gives_expect (by decide) hc3).bind fun close' c4 hc4 hclose => Gives.pure hc4 ?_
  simp [Block.unnumbered, Stmt.unnumberedAll_eq, hlead, hss, hclose]

theorem gives_block {b : Block} (hb : b.WellFormed) (hc : c.At (b.tokens ++ r) tail) :
    Gives block c r tail fun y => y.unnumbered = b.unnumbered :=
  gives_fix (fun _ _ hself => gives_blockOf hself) ⟨hb, hc⟩

/-! ### Members -/

theorem gives_param {p : Param} (hp : p.WellFormed) (hc : c.At (p.tokens ++ r) tail) :
    Gives param c r tail fun y => y.unnumbered = p.unnumbered := by
  have hne := typeTokens_ne_nil hp.type_ok
  refine (gives_fresh hc).bind fun id c1 hc1 _ => ?_
  have hbare : HeadBare (modifierTokens p.modifiers ++ (p.type.tokens ++ p.name.tokens)) := by
    rw [← List.append_assoc, headBare_append _ (by simp [hne])]
    exact hp.bare
  refine (gives_takeLead_prepend (by simp [hne]) hbare hc1).bind fun lead c2 hc2 hlead => ?_
  simp only [List.append_assoc] at hc2
  refine gives_declared hp hc2 fun ms type name c3 hms htype hname hc3 => Gives.pure hc3 ?_
  simp [Param.unnumbered, hlead, hms, htype, hname]

theorem gives_methodBody {b : MethodBody} (hb : b.WellFormed) (hc : c.At (b.tokens ++ r) tail) :
    Gives methodBody c r tail fun y => y.unnumbered = b.unnumbered := by
  cases b with
  | block b =>
    refine Gives.get (Gives.ite_pos ?_ ((gives_block hb hc).bind fun y c1 hc1 hy =>
      Gives.pure hc1 ?_))
    · obtain ⟨id, lead, statements, close⟩ := b
      rw [hc.isAt (by decide)]
      simp [MethodBody.tokens, Block.tokens]
    · simp [MethodBody.unnumbered, hy]
  | absent semi =>
    refine Gives.get (Gives.ite_neg ?_ (Gives.ite_pos ?_ ((gives_bump hc).bind fun t c1 hc1 ht =>
      Gives.pure hc1 ?_)))
    · rw [hc.isAt (by decide)]
      simp [MethodBody.tokens]
    · rw [hc.isAt (by decide)]
      simp [MethodBody.tokens]
    · have hlead : t.lead = semi := congrArg Token.lead ht
      simp [MethodBody.unnumbered, hlead]

theorem headIs_param {p : Param} (hp : p.WellFormed) {text : String}
    (htext : isNoDeclarator text = true) : headIs p.tokens text = false := by
  rw [Param.tokens, headIs_prependLead]
  exact headIs_declared hp.modifiers_ok hp.type_ok htext _

/-- A method from its parameters on. -/
theorem gives_methodOf {m : Method} (hm : m.WellFormed) {id : NodeId} {ms : List Ident}
    {type : Option TypeName} {name : Ident}
    (hms : ms.map Ident.unnumbered = m.modifiers.map Ident.unnumbered)
    (htype : type.map TypeName.unnumbered = m.returnType.map TypeName.unnumbered)
    (hname : name.unnumbered = m.name.unnumbered)
    (hc : c.At (m.params.tokens "(" ")" Param.tokens ++ (m.body.tokens ++ r)) tail) :
    Gives (methodOf id m.lead ms type name) c r tail fun y => y.unnumbered = m.unnumbered := by
  obtain ⟨hitems, hlast⟩ := itemsOk_iff.mp hm.params
  have hitem : ∀ p ∈ m.params.items, ∀ c' r, c'.rest.length + 1 < c.rest.length + 1 →
      c'.At (p.elem.tokens ++ r) tail → True →
      Gives param c' r tail fun y => y.unnumbered = p.elem.unnumbered :=
    fun p hp c' r _ hc' _ => gives_param (hitems p hp) hc'
  refine (gives_listing (by decide) (by decide) (by decide) hitem
    (fun p hp => ⟨?_, headIs_param (hitems p hp) (by decide)⟩) (fun _ _ => trivial)
    (fun _ _ => trivial) hlast (Nat.lt_succ_self _) hc).bind fun params c1 hc1 hparams => ?_
  · simp [Param.tokens, Ident.tokens]
  · refine (gives_methodBody hm.body hc1).bind fun body c2 hc2 hbody => Gives.pure hc2 ?_
    simp only [Method.unnumbered, hms, htype, hname, hbody, Listing.map, hparams.1, hparams.2.1,
      hparams.2.2]

/-- Behind its first token a type goes on with a dot or its arguments, or it ends. -/
theorem headIs_typeTokens_tail (t : TypeName) {rest : List Token} {text : String}
    (hdot : text ≠ ".") (hargs : text ≠ "<") (hrest : headIs rest text = false) :
    headIs ((t.tokens ++ rest).drop 1) text = false := by
  have hopt : headIs (optionTokens TypeArguments.tokens t.args ++ rest) text = false := by
    cases t.args with
    | none => exact hrest
    | some a =>
      obtain ⟨id, lead, items, close⟩ := a
      simpa [optionTokens, TypeArguments.tokens] using hargs.symm
  rw [TypeName.tokens_eq, List.append_assoc]
  by_cases hany : t.name = "?"
  · rw [typeHeadTokens, if_pos hany]
    exact hopt
  · rw [typeHeadTokens, if_neg hany, nameTokens]
    cases hsegs : Name.segments t.name with
    | nil => exact absurd hsegs (Name.segments_ne_nil _)
    | cons s ss =>
      cases ss with
      | nil => exact hopt
      | cons s' ss => simpa [dottedTokens, dotTokens] using hdot.symm

/-- A type with a name behind it does not look like a constructor. -/
theorem isConstructor_of_at {t : TypeName} {name : Ident}
    (hname : isNameText name.name = true) (hc : c.At (t.tokens ++ (name.tokens ++ r)) tail) :
    (c.peek.isName && (c.peekAt 1).is "(") = false := by
  rw [hc.peekAt_is 1 (by decide), headIs_typeTokens_tail t (by decide) (by decide)
    (headIs_ident hname (by decide)), Bool.and_false]

/-- A type and a name of a member, after its modifiers. -/
theorem gives_memberType {ms : List Ident} {type : TypeName} {name : Ident}
    (h : Declares ms type name) (hc : c.At (type.tokens ++ (name.tokens ++ r)) tail) :
    Gives (some <$> typeName) c (name.tokens ++ r) tail fun o =>
      ∃ type', o = some type' ∧ type'.unnumbered = type.unnumbered :=
  (gives_typeName h.type_ok (typeFollow_name h.name_ok h.unbounded) hc).map fun y hy => ⟨y, rfl, hy⟩

theorem gives_field {v : Variable} (hv : v.WellFormed) {id : NodeId} {ms : List Ident}
    (hms : ms.map Ident.unnumbered = v.modifiers.map Ident.unnumbered)
    (hc : c.At (v.type.tokens ++ (v.name.tokens ++ (optionTokens Initializer.tokens v.value
      ++ (symbol v.semi ";" :: r)))) tail) :
    Gives (fieldOrMethodOf id v.lead ms) c r tail fun y =>
      y.unnumbered = (Member.field v).unnumbered := by
  refine Gives.get (Gives.ite_neg ?_ ((gives_memberType hv.declares hc).bind
    fun o c1 hc1 ho => ?_))
  · rw [isConstructor_of_at hv.declares.name_ok hc]
    decide
  · obtain ⟨type, rfl, htype⟩ := ho
    refine (gives_ident hv.declares.name_ok hc1).bind fun name c2 hc2 hname => Gives.get ?_
    refine Gives.ite_neg ?_ ((gives_variableOf hv.value hms htype hname hc2).bind
      fun y c3 hc3 hy => Gives.pure hc3 ?_)
    · rw [hc2.isAt (by decide)]
      cases v.value <;> simp [optionTokens, Initializer.tokens]
    · simp [Member.unnumbered, hy]

theorem gives_method {m : Method} (hm : m.WellFormed) {id : NodeId} {ms : List Ident}
    (hms : ms.map Ident.unnumbered = m.modifiers.map Ident.unnumbered)
    (hc : c.At (optionTokens TypeName.tokens m.returnType ++ (m.name.tokens
      ++ (m.params.tokens "(" ")" Param.tokens ++ (m.body.tokens ++ r)))) tail) :
    Gives (fieldOrMethodOf id m.lead ms) c r tail fun y =>
      y.unnumbered = (Member.method m).unnumbered := by
  have hopen : headIs (m.params.tokens "(" ")" Param.tokens ++ (m.body.tokens ++ r)) "(" = true :=
    Token.symbol_is_self m.params.lead "("
  cases htype : m.returnType with
  | none =>
    have hok := hm.constructs htype
    rw [htype] at hc
    have hc' : c.At (m.name.tokens ++ (m.params.tokens "(" ")" Param.tokens
      ++ (m.body.tokens ++ r))) tail := hc
    refine Gives.get (Gives.ite_pos ?_ (Gives.bind (Gives.pure hc' rfl) fun o c1 hc1 ho => ?_))
    · rw [isName_of_at hc', hc'.peekAt_is 1 (by decide), Bool.and_eq_true]
      exact ⟨isName_of_isNameText hok.name_ok _, hopen⟩
    · subst ho
      refine (gives_ident hok.name_ok hc1).bind fun name c2 hc2 hname => Gives.get ?_
      refine Gives.ite_pos ?_ ((gives_methodOf hm hms ?_ hname hc2).bind fun y c3 hc3 hy =>
        Gives.pure hc3 ?_)
      · rw [hc2.isAt (by decide)]
        exact hopen
      · rw [htype]
      · simp [Member.unnumbered, hy]
  | some type =>
    have hok := hm.declares type htype
    rw [htype] at hc
    refine Gives.get (Gives.ite_neg ?_ ((gives_memberType hok hc).bind fun o c1 hc1 ho => ?_))
    · rw [isConstructor_of_at hok.name_ok hc]
      decide
    · obtain ⟨type', rfl, htype'⟩ := ho
      refine (gives_ident hok.name_ok hc1).bind fun name c2 hc2 hname => Gives.get ?_
      refine Gives.ite_pos ?_ ((gives_methodOf hm hms ?_ hname hc2).bind fun y c3 hc3 hy =>
        Gives.pure hc3 ?_)
      · rw [hc2.isAt (by decide)]
        exact hopen
      · rw [htype, Option.map_some, Option.map_some, htype']
      · simp [Member.unnumbered, hy]

/-! ### Types -/

theorem gives_typeKind {lead : Trivia} {kind : TypeKind}
    (hc : c.At (.word lead kind.keyword :: r) tail) :
    Gives typeKind c r tail (· = (lead, kind)) := by
  cases kind with
  | ofClass =>
    refine Gives.get (Gives.ite_pos ?_ ((gives_bump hc).bind fun t c1 hc1 ht => Gives.pure hc1 ?_))
    · rw [hc.isAt (by decide)]
      simp [TypeKind.keyword]
    · have hlead : t.lead = lead := congrArg Token.lead ht
      rw [hlead]
  | ofInterface =>
    refine Gives.get (Gives.ite_neg ?_ (Gives.ite_pos ?_ ((gives_bump hc).bind fun t c1 hc1 ht =>
      Gives.pure hc1 ?_)))
    · rw [hc.isAt (by decide)]
      simp [TypeKind.keyword]
    · rw [hc.isAt (by decide)]
      simp [TypeKind.keyword]
    · have hlead : t.lead = lead := congrArg Token.lead ht
      rw [hlead]

/-- A clause in front of something that ends it. -/
theorem gives_typeClause {keyword : String} {clause : TypeClause} (hclause : clause.WellFormed)
    (hfollow : ∀ t, TypeFollow t r) (hstop : headIs r "," = false)
    (hc : c.At (clause.tokens keyword ++ r) tail) :
    Gives typeClause c r tail fun y => y.unnumbered = clause.unnumbered := by
  obtain ⟨hitems, hlast⟩ := itemsOk_iff.mp hclause.types
  refine (gives_fresh hc).bind fun id c1 hc1 _ => (gives_bump hc1).bind fun t c2 hc2 ht => ?_
  have hitem : ∀ p ∈ clause.types, ∀ c r, c.rest.length < c2.rest.length + 1 →
      c.At (p.elem.tokens ++ r) tail → (∀ t, TypeFollow t r) →
      Gives typeName c r tail fun y => y.unnumbered = p.elem.unnumbered :=
    fun p hp c r _ hc hr => gives_typeName (hitems p hp) (hr _) hc
  refine (gives_separated hitem
    (fun after r t => typeFollow_of_is (Token.symbol_is_self after ",") (by decide)) hfollow hstop
    hclause.nonempty hlast (Nat.lt_succ_self _) hc2).bind fun types c3 hc3 htypes => Gives.pure hc3 ?_
  have hlead : t.lead = clause.lead := congrArg Token.lead ht
  simp only [TypeClause.unnumbered, hlead]
  rw [htypes]

theorem headIs_body {body : TypeBody} {text : String} (hbody : text ≠ "\x7b") :
    headIs (body.tokens ++ r) text = false := by
  obtain ⟨id, lead, members, close⟩ := body
  simpa [TypeBody.tokens] using hbody.symm

theorem headIs_optionClause {keyword : String} {clause : Option TypeClause} {text : String}
    (hclause : text ≠ keyword) (hrest : headIs r text = false) :
    headIs (optionTokens (TypeClause.tokens keyword) clause ++ r) text = false := by
  cases clause with
  | none => exact hrest
  | some clause => simpa [optionTokens, TypeClause.tokens] using hclause.symm

theorem typeFollow_body {body : TypeBody} {t : TypeName} : TypeFollow t (body.tokens ++ r) := by
  obtain ⟨id, lead, members, close⟩ := body
  exact typeFollow_of_is (Token.symbol_is_self lead "\x7b") (by decide)

theorem typeFollow_implements {implementing : Option TypeClause} {body : TypeBody} {t : TypeName} :
    TypeFollow t (optionTokens (TypeClause.tokens "implements") implementing
      ++ (body.tokens ++ r)) := by
  cases implementing with
  | none => exact typeFollow_body
  | some clause =>
    have hword : (Token.word clause.lead "implements").is "implements" = true := by simp
    exact typeFollow_of_is hword (by decide)

/-- The header of a type and its body, after the modifiers. -/
theorem gives_typeDeclOf {self : Parser TypeBody} {d : TypeDecl} {id : NodeId} {ms : List Ident}
    (hd : d.WellFormed)
    (hself : ∀ c', c'.rest.length < c.rest.length → c'.At (d.body.tokens ++ r) tail →
      Gives self c' r tail fun y => y.unnumbered = d.body.unnumbered)
    (hms : ms.map Ident.unnumbered = d.modifiers.map Ident.unnumbered)
    (hc : c.At (headerTokens d.kindLead d.kind d.name d.typeParams d.extending d.implementing
      ++ (d.body.tokens ++ r)) tail) :
    Gives (typeDeclOf self id d.lead ms) c r tail fun y => y.unnumbered = d.unnumbered := by
  obtain ⟨did, lead, modifiers, kindLead, kind, name, typeParams, extending, implementing, body⟩ := d
  obtain ⟨⟨_, _, hname, hparams, hext, himp⟩, _⟩ := hd
  simp only [headerTokens, List.cons_append, List.append_assoc] at hc
  refine (gives_typeKind hc).bind fun kind' c1 hc1 hkind => ?_
  have hlen1 := hc.length_cons hc1
  refine (gives_ident hname hc1).bind fun name' c2 hc2 hname' => ?_
  have hlen2 := hc1.length_le hc2
  refine (gives_whenAt (by decide) hc2 (fun _ => headIs_optionClause (by decide)
    (headIs_optionClause (by decide) (headIs_body (by decide))))
    fun a ha => ⟨?_, fun hat => gives_typeArguments (hparams a ha) hat⟩).bind
    fun params c3 hc3 hparams' => ?_
  · obtain ⟨aid, alead, items, close⟩ := a
    simp [TypeArguments.tokens]
  have hlen3 := hc2.length_le hc3
  refine (gives_whenAt (by decide) hc3
    (fun _ => headIs_optionClause (by decide) (headIs_body (by decide)))
    fun a ha => ⟨by simp [TypeClause.tokens], fun hat => gives_typeClause (hext a ha)
      (fun _ => typeFollow_implements)
      (headIs_optionClause (by decide) (headIs_body (by decide))) hat⟩).bind
    fun ext c4 hc4 hext' => ?_
  have hlen4 := hc3.length_le hc4
  refine (gives_whenAt (by decide) hc4 (fun _ => headIs_body (by decide))
    fun a ha => ⟨by simp [TypeClause.tokens], fun hat => gives_typeClause (himp a ha)
      (fun _ => typeFollow_body) (headIs_body (by decide)) hat⟩).bind fun imp c5 hc5 himp' => ?_
  have hlen5 := hc4.length_le hc5
  refine (hself c5 (by omega) hc5).bind fun body' c6 hc6 hbody => Gives.pure hc6 ?_
  simp only [TypeDecl.unnumbered, hkind, hname', hparams', hext', himp', hbody]
  rw [hms]

/-- A type with its trivia and its modifiers. -/
theorem gives_typeDecl_bare {β : Type} {k : Trivia → List Ident → Parser β} {P : β → Prop}
    {d : TypeDecl} {r' : List Token} (hd : d.WellFormed)
    (hk : ∀ ms c', ms.map Ident.unnumbered = d.modifiers.map Ident.unnumbered →
      c'.rest.length ≤ c.rest.length →
      c'.At (headerTokens d.kindLead d.kind d.name d.typeParams d.extending d.implementing
        ++ (d.body.tokens ++ r)) tail → Gives (k d.lead ms) c' r' tail P)
    (hc : c.At (d.tokens ++ r) tail) :
    Gives (do
      let lead ← takeLead
      let ms ← modifiers
      k lead ms) c r' tail P := by
  obtain ⟨did, lead, ms, kindLead, kind, name, typeParams, extending, implementing, body⟩ := d
  obtain ⟨⟨hbare, hms, _⟩, _⟩ := hd
  have hkey : isModifierText kind.keyword = false ∧ kind.keyword ≠ ":" ∧ kind.keyword ≠ "(" := by
    cases kind <;> decide
  have hbare' : HeadBare (modifierTokens ms ++ (headerTokens kindLead kind name typeParams extending
      implementing ++ body.tokens)) := by
    cases ms with
    | nil =>
      intro t ht
      cases ht
      exact hbare (.word kindLead "") rfl
    | cons m ms => exact hbare
  refine (gives_takeLead_prepend (by simp [headerTokens]) hbare' hc).bind
    fun lead' c1 hc1 hlead => ?_
  subst hlead
  have hlen1 : c1.rest.length = c.rest.length := by
    rw [hc.length, hc1.length, TypeDecl.tokens]
    cases hrow : modifierTokens ms ++ (headerTokens kindLead kind name typeParams extending
      implementing ++ body.tokens) <;> simp [prependLead]
  simp only [List.append_assoc] at hc1
  refine (gives_modifiers hms ?_ ?_ ?_ hc1).bind fun ms' c2 hc2 hms' => ?_
  · simp only [headerTokens, List.cons_append, startsModifier, Token.word_kind, Token.word_text]
    have hmod := hkey.1
    have hword : Scan.isWordText kind.keyword.toList = true := by cases kind <;> decide
    rw [isModifierText, hword, Bool.true_and] at hmod
    have hmark : (Token.word kindLead kind.keyword).isMarker = (Token.word "" kind.keyword).isMarker :=
      rfl
    rw [hmark, hmod]
    rfl
  · simpa [headerTokens] using hkey.2.1
  · simpa [headerTokens] using hkey.2.2
  · have hlen2 := hc1.length_le hc2
    exact hk ms' c2 hms' (by omega) hc2

/-- A member that is no type: after its modifiers stands neither a keyword of a type nor a bracket. -/
theorem gives_memberOf {self : Parser TypeBody} {m : Member} {lead : Trivia} {ms : List Ident}
    {row : List Token} (hbare : HeadBare (modifierTokens ms ++ row)) (hne : row ≠ [])
    (hms : ∀ c, c.At (modifierTokens ms ++ (row ++ r)) tail →
      Gives modifiers c (row ++ r) tail fun ys => ys.map Ident.unnumbered = ms.map Ident.unnumbered)
    (hhead : ∀ text, text ≠ "?" → isNameText text = false → headIs row text = false)
    (hrest : ∀ id ms' c, ms'.map Ident.unnumbered = ms.map Ident.unnumbered →
      c.At (row ++ r) tail →
      Gives (fieldOrMethodOf id lead ms') c r tail fun y => y.unnumbered = m.unnumbered)
    (hc : c.At (prependLead lead (modifierTokens ms ++ row) ++ r) tail) :
    Gives (memberOf self) c r tail fun y => y.unnumbered = m.unnumbered := by
  have hhead' : ∀ text, text ≠ "?" → isNameText text = false → headIs (row ++ r) text = false := by
    intro text hany hname
    rw [headIs_append _ _ hne]
    exact hhead text hany hname
  refine (gives_fresh hc).bind fun id c1 hc1 _ => ?_
  refine (gives_takeLead_prepend (by simp [hne]) hbare hc1).bind fun lead' c2 hc2 hlead => ?_
  subst hlead
  rw [List.append_assoc] at hc2
  refine (hms c2 hc2).bind fun ms' c3 hc3 hms' => Gives.get ?_
  refine Gives.ite_neg ?_ (Gives.ite_neg ?_ (Gives.ite_neg ?_ (hrest id ms' c3 hms' hc3)))
  · rw [hc3.isAtAny (by decide), List.any_eq_true]
    rintro ⟨text, htext, hat⟩
    have hall : ∀ text ∈ ["class", "interface", "enum"], text ≠ "?" ∧ isNameText text = false := by
      decide
    rw [hhead' text (hall text htext).1 (hall text htext).2] at hat
    cases hat
  · rw [hc3.isAt (by decide), hhead' _ (by decide) (by decide)]
    decide
  · rw [hc3.isAt (by decide), hhead' _ (by decide) (by decide)]
    decide

theorem gives_member_field {self : Parser TypeBody} {v : Variable} (hv : v.WellFormed)
    (hc : c.At (v.tokens ++ r) tail) :
    Gives (memberOf self) c r tail fun y => y.unnumbered = (Member.field v).unnumbered := by
  have hdecl := hv.declares
  have hne := typeTokens_ne_nil hdecl.type_ok
  refine gives_memberOf ?_ (by simp) (fun c hc => ?_) (fun text hany hname => ?_)
    (fun id ms c hms hc => gives_field hv hms (by simpa using hc)) hc
  · rw [← List.append_assoc, headBare_append _ (by simp [hne])]
    exact hdecl.bare
  · simp only [List.append_assoc] at hc ⊢
    exact gives_declared_modifiers hdecl hc
  · rw [headIs_append _ _ hne]
    exact headIs_typeTokens hdecl.type_ok hany hname

theorem gives_member_method {self : Parser TypeBody} {m : Method} (hm : m.WellFormed)
    (hc : c.At (m.tokens ++ r) tail) :
    Gives (memberOf self) c r tail fun y => y.unnumbered = (Member.method m).unnumbered := by
  refine gives_memberOf ?_ (by simp [Ident.tokens]) (fun c hc => ?_) (fun text hany hname => ?_)
    (fun id ms c hms hc => gives_method hm hms (by simpa using hc)) hc
  · cases htype : m.returnType with
    | none =>
      rw [optionTokens, List.nil_append, ← List.append_assoc,
        headBare_append _ (by simp [Ident.tokens])]
      exact (hm.constructs htype).bare
    | some type =>
      have hdecl := hm.declares type htype
      have hne := typeTokens_ne_nil hdecl.type_ok
      rw [optionTokens, ← List.append_assoc, headBare_append _ (by simp [hne])]
      exact hdecl.bare
  · cases htype : m.returnType with
    | none =>
      have hok := hm.constructs htype
      rw [htype] at hc
      simp only [optionTokens, List.nil_append, List.append_assoc] at hc ⊢
      exact gives_modifiers hok.modifiers_ok hok.unmodified
        (headIs_ident hok.name_ok (by decide)) (headIs_ident hok.name_ok (by decide)) hc
    | some type =>
      rw [htype] at hc
      simp only [optionTokens, List.append_assoc] at hc ⊢
      exact gives_declared_modifiers (hm.declares type htype) hc
  · cases htype : m.returnType with
    | none => exact headIs_ident (hm.constructs htype).name_ok hname
    | some type =>
      have hdecl := hm.declares type htype
      rw [optionTokens, headIs_append _ _ (typeTokens_ne_nil hdecl.type_ok)]
      exact headIs_typeTokens hdecl.type_ok hany hname

theorem gives_member_type {self : Parser TypeBody} {d : TypeDecl} (hd : d.WellFormed)
    (hself : ∀ c', c'.rest.length < c.rest.length → c'.At (d.body.tokens ++ r) tail →
      Gives self c' r tail fun y => y.unnumbered = d.body.unnumbered)
    (hc : c.At (d.tokens ++ r) tail) :
    Gives (memberOf self) c r tail fun y => y.unnumbered = (Member.type d).unnumbered := by
  refine (gives_fresh hc).bind fun id c1 hc1 _ => ?_
  have hlen := hc.length.trans hc1.length.symm
  refine gives_typeDecl_bare hd (fun ms c2 hms hlen2 hc2 => Gives.get (Gives.ite_pos ?_ ?_)) hc1
  · rw [hc2.isAtAny (by decide), List.any_eq_true]
    refine ⟨d.kind.keyword, ?_, by simp [headerTokens]⟩
    cases d.kind <;> decide
  · refine (gives_typeDeclOf hd (fun c' hlt hat => hself c' (by omega) hat) hms hc2).bind
      fun y c3 hc3 hy => Gives.pure hc3 ?_
    simp [Member.unnumbered, hy]

theorem memberTokens_head {m : Member} (hm : m.WellFormed) :
    m.tokens ≠ [] ∧ headIs m.tokens "\x7d" = false := by
  cases m with
  | field v =>
    have hdecl : Declares v.modifiers v.type v.name := Variable.WellFormed.declares hm
    refine ⟨by simp [Member.tokens, Variable.tokens], ?_⟩
    rw [Member.tokens, Variable.tokens, headIs_prependLead]
    exact headIs_declared hdecl.modifiers_ok hdecl.type_ok (by decide) _
  | method m =>
    have hwf : m.WellFormed := hm
    refine ⟨by simp [Member.tokens, Method.tokens, Ident.tokens], ?_⟩
    rw [Member.tokens, Method.tokens, headIs_prependLead]
    cases htype : m.returnType with
    | none =>
      have hok := hwf.constructs htype
      exact headIs_modifierTokens hok.modifiers_ok (by decide) (headIs_ident hok.name_ok (by decide))
    | some type =>
      have hdecl := hwf.declares type htype
      exact headIs_declared hdecl.modifiers_ok hdecl.type_ok (by decide) _
  | type d =>
    obtain ⟨id, lead, ms, kindLead, kind, name, typeParams, extending, implementing, body⟩ := d
    obtain ⟨⟨_, hms, _⟩, _⟩ := hm
    refine ⟨by simp [Member.tokens, TypeDecl.tokens, headerTokens], ?_⟩
    rw [Member.tokens, TypeDecl.tokens, headIs_prependLead]
    refine headIs_modifierTokens hms (by decide) ?_
    cases kind <;> simp [headerTokens, TypeKind.keyword]

/-- The body of a type, given that the bodies inside it are accepted. -/
theorem gives_typeBodyOf {self : Parser TypeBody} {n : Nat}
    (hself : ∀ (b : TypeBody) c r, c.rest.length < n → (b.WellFormed ∧ c.At (b.tokens ++ r) tail) →
      Gives self c r tail fun y => y.unnumbered = b.unnumbered)
    (b : TypeBody) (c : Cursor) (r : List Token) (hn : c.rest.length < n + 1)
    (hb : b.WellFormed ∧ c.At (b.tokens ++ r) tail) :
    Gives (typeBodyOf self) c r tail fun y => y.unnumbered = b.unnumbered := by
  obtain ⟨hwf, hc⟩ := hb
  obtain ⟨bid, lead, members, close⟩ := b
  have hall := (Member.wellFormedAll_iff members).mp hwf
  have hc0 : c.At (symbol lead "\x7b" :: (members.flatMap Member.tokens
      ++ (symbol close "\x7d" :: r))) tail := by
    simpa [TypeBody.tokens, Member.tokensAll_eq] using hc
  refine (gives_fresh hc0).bind fun id c1 hc1 _ => ?_
  refine (gives_expect (by decide) hc1).bind fun lead' c2 hc2 hlead => ?_
  have hlen0 := hc0.length.trans hc1.length.symm
  have hlen := hc1.length_cons hc2
  have hitem : ∀ m ∈ members, ∀ c r, c.rest.length < n → c.At (m.tokens ++ r) tail →
      Gives (memberOf self) c r tail fun y => y.unnumbered = m.unnumbered := by
    intro m hm c r hb hc
    have hmwf := hall m hm
    cases m with
    | field v => exact gives_member_field hmwf hc
    | method m => exact gives_member_method hmwf hc
    | type d =>
      refine gives_member_type hmwf (fun c' hlt hat => hself d.body c' r (by omega) ⟨?_, hat⟩) hc
      obtain ⟨did, dlead, ms, kindLead, kind, name, typeParams, extending, implementing, body⟩ := d
      exact hmwf.2
  refine (gives_untilBrace hitem (fun m hm => memberTokens_head (hall m hm)) (by omega) hc2).bind
    fun ms c3 hc3 hms => ?_
  refine (gives_expect (by decide) hc3).bind fun close' c4 hc4 hclose => Gives.pure hc4 ?_
  simp [TypeBody.unnumbered, Member.unnumberedAll_eq, hlead, hms, hclose]

theorem gives_typeBody {b : TypeBody} (hb : b.WellFormed) (hc : c.At (b.tokens ++ r) tail) :
    Gives typeBody c r tail fun y => y.unnumbered = b.unnumbered :=
  gives_fix (fun _ _ hself => gives_typeBodyOf hself) ⟨hb, hc⟩

theorem gives_typeDecl {d : TypeDecl} (hd : d.WellFormed) (hc : c.At (d.tokens ++ r) tail) :
    Gives typeDecl c r tail fun y => y.unnumbered = d.unnumbered := by
  refine (gives_fresh hc).bind fun id c1 hc1 _ => ?_
  refine gives_typeDecl_bare hd (fun ms c2 hms _ hc2 => ?_) hc1
  refine gives_typeDeclOf hd (fun c' _ hat => gives_typeBody ?_ hat) hms hc2
  obtain ⟨did, lead, mods, kindLead, kind, name, typeParams, extending, implementing, body⟩ := d
  exact hd.2

/-! ### Modules -/

theorem gives_package {p : Package} (hp : isDottedText false p.name = true)
    (hc : c.At (p.tokens ++ r) tail) :
    Gives package c r tail fun y => { y with id := 0 } = { p with id := 0 } := by
  have hc0 : c.At (.word p.lead "package" :: (nameTokens p.nameLead p.name
      ++ (wildcardTokens false ++ (symbol p.semi ";" :: r)))) tail := by
    simpa [Package.tokens, wildcardTokens] using hc
  refine (gives_fresh hc0).bind fun id c1 hc1 _ => (gives_bump hc1).bind fun t c2 hc2 ht => ?_
  refine (gives_dotted hp (by simp) (fun _ => by simp) hc2).bind fun name c3 hc3 hname => ?_
  subst hname
  refine (gives_expect (by decide) hc3).bind fun semi c4 hc4 hsemi => Gives.pure hc4 ?_
  have hlead : t.lead = p.lead := congrArg Token.lead ht
  simp [hlead, hsemi]

theorem gives_importDecl {i : Import} (hi : i.WellFormed) (hc : c.At (i.tokens ++ r) tail) :
    Gives importDecl c r tail fun y => { y with id := 0 } = { i with id := 0 } := by
  have hc0 : c.At (.word i.lead "import" ::
      (optionTokens (fun lead => [.word lead "static"]) i.staticLead
        ++ (nameTokens i.nameLead i.name ++ (wildcardTokens i.wildcard ++ (symbol i.semi ";" :: r)))))
      tail := by
    simpa [Import.tokens, Import.tailTokens] using hc
  refine (gives_fresh hc0).bind fun _ c1 hc1 _ => (gives_bump hc1).bind fun t c2 hc2 ht => ?_
  refine (gives_whenAt (f := id) (by decide) hc2 (fun _ => ?_) fun lead _ => ⟨by simp, fun hat => ?_⟩).bind
    fun static c3 hc3 hstatic => ?_
  · cases hsegs : Name.segments i.name with
    | nil => exact absurd hsegs (Name.segments_ne_nil _)
    | cons s ss =>
      have hname := hi
      rw [Import.WellFormed, isDottedText, hsegs, Bool.and_eq_true] at hname
      rw [nameTokens, hsegs, dottedTokens]
      simp only [List.cons_append, headIs_cons, Token.word_is, beq_eq_false_iff_ne]
      rintro rfl
      exact absurd hname.1 (by decide)
  · refine (gives_bump hat).map fun y hy => ?_
    have hlead : y.lead = lead := congrArg Token.lead hy
    rw [hlead]
  · refine (gives_dotted hi (fun _ => rfl) (fun _ => by simp) hc3).bind fun name c4 hc4 hname => ?_
    subst hname
    refine (gives_expect (by decide) hc4).bind fun semi c5 hc5 hsemi => Gives.pure hc5 ?_
    have hlead : t.lead = i.lead := congrArg Token.lead ht
    simp only [Option.map_id] at hstatic
    obtain rfl : static = i.staticLead := hstatic
    simp [hlead, hsemi]

theorem headIs_typeDecl {d : TypeDecl} (hd : d.WellFormed) {text : String}
    (htext : isModifierText text = false) (hclass : text ≠ "class") (hinterface : text ≠ "interface") :
    headIs d.tokens text = false := by
  obtain ⟨id, lead, ms, kindLead, kind, name, typeParams, extending, implementing, body⟩ := d
  obtain ⟨⟨_, hms, _⟩, _⟩ := hd
  rw [TypeDecl.tokens, headIs_prependLead]
  refine headIs_modifierTokens hms htext ?_
  cases kind
  · simpa [headerTokens, TypeKind.keyword] using hclass.symm
  · simpa [headerTokens, TypeKind.keyword] using hinterface.symm

theorem typeDeclTokens_ne_nil (d : TypeDecl) : d.tokens ≠ [] := by
  obtain ⟨id, lead, ms, kindLead, kind, name, typeParams, extending, implementing, body⟩ := d
  simp [TypeDecl.tokens, headerTokens]

/-- The first token of the types of a module. -/
theorem headIs_types {ds : List TypeDecl} (hds : ∀ d ∈ ds, d.WellFormed) {text : String}
    (htext : isModifierText text = false) (hclass : text ≠ "class")
    (hinterface : text ≠ "interface") : headIs (ds.flatMap TypeDecl.tokens) text = false := by
  cases ds with
  | nil => rfl
  | cons d ds =>
    rw [List.flatMap_cons, headIs_append _ _ (typeDeclTokens_ne_nil d)]
    exact headIs_typeDecl (hds d List.mem_cons_self) htext hclass hinterface

/-- **Modules are read back.** -/
theorem module_run {m : Module} (hm : m.WellFormed) (hc : c.At m.tokens m.eof) :
    ∃ y c', module c = .ok (y, c') ∧ y.unnumbered = m.unnumbered := by
  obtain ⟨mid, pkg, imports, types, eof, nextId⟩ := m
  obtain ⟨hpkg, himports, htypes⟩ := hm
  obtain ⟨id, c1, h1, hc1, _⟩ := gives_fresh hc
  have hpackage : Gives (whenAt "package" package) c1
      (imports.flatMap Import.tokens ++ types.flatMap TypeDecl.tokens) eof fun y =>
        y.map (fun p => { p with id := 0 }) = pkg.map fun p => { p with id := 0 } := by
    refine gives_whenAt (by decide) hc1 (fun _ => ?_)
      fun p hp => ⟨by simp [Package.tokens], fun hat => gives_package (hpkg p hp) hat⟩
    cases imports with
    | nil => exact headIs_types htypes (by decide) (by decide) (by decide)
    | cons i imports => simp [Import.tokens]
  obtain ⟨pkg', c2, h2, hc2, hpkg'⟩ := hpackage
  have hone : ∀ i ∈ imports, ∀ c r, c.rest.length < c2.rest.length + 1 →
      c.At (i.tokens ++ r) eof → True → c.isAt "import" = true ∧
      Gives importDecl c r eof fun y => { y with id := 0 } = { i with id := 0 } := by
    intro i hi c r _ hc _
    refine ⟨?_, gives_importDecl (himports i hi) hc⟩
    rw [hc.isAt (by decide)]
    simp [Import.tokens]
  have himport : headIs (types.flatMap TypeDecl.tokens) "import" = false :=
    headIs_types htypes (by decide) (by decide) (by decide)
  obtain ⟨imports', c3, h3, hc3, himports'⟩ :=
    gives_many hone (fun i _ => ⟨by simp [Import.tokens], fun _ => trivial⟩) trivial
      (fun c hc => by rw [hc.isAt (by decide), himport]) (Nat.lt_succ_self _) hc2
  have htype : ∀ d ∈ types, ∀ c r, c.rest.length < c3.rest.length + 1 →
      c.At (d.tokens ++ r) eof → True → (!c.atEnd) = true ∧
      Gives typeDecl c r eof fun y => y.unnumbered = d.unnumbered := by
    intro d hd c r _ hc _
    refine ⟨?_, gives_typeDecl (htypes d hd) hc⟩
    have hpos := List.length_pos_iff.mpr (typeDeclTokens_ne_nil d)
    have hlen := hc.length
    rw [List.length_append] at hlen
    rw [Cursor.atEnd, Bool.not_eq_true', List.isEmpty_eq_false_iff]
    intro hnil
    rw [hnil, List.length_nil] at hlen
    omega
  rw [← List.append_nil (types.flatMap TypeDecl.tokens)] at hc3
  obtain ⟨types', c4, h4, hc4, htypes'⟩ :=
    gives_many htype (fun d _ => ⟨typeDeclTokens_ne_nil d, fun _ => trivial⟩) trivial
      (fun c hc => by simp [Cursor.atEnd, List.map_eq_nil_iff.mp hc.ahead]) (Nat.lt_succ_self _) hc3
  have hrest : c4.rest = [] := List.map_eq_nil_iff.mp hc4.ahead
  have heof : c4.eof.lead = eof := congrArg Token.lead hc4.eof
  refine ⟨_, _, bind_ok.mpr ⟨_, _, h1, bind_ok.mpr ⟨_, _, h2, bind_ok.mpr ⟨_, _, h3,
    bind_ok.mpr ⟨_, _, h4, rfl⟩⟩⟩⟩, ?_⟩
  simp only [Module.unnumbered, hpkg', himports', htypes', Cursor.peek, hrest, List.headD_nil, heof]

end Migration.Parser
