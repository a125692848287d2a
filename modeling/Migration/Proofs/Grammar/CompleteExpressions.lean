import Migration.Proofs.Grammar.CompleteTypes

/-!
# Expressions are read back

An expression is well formed when its operands bind tightly enough, so reading its tokens again
rebuilds it: `gives_expr`. Operators of one level associate to the left, and so do accesses and
calls. The production collects them in a loop, and the tree is their spine, with the last operator
outermost. Each spine is an induction on the tree that says how far the loop has come (`Reaches`).

What follows an expression must not go on with it (`Follow`): no dot, no opening parenthesis, no
operator that binds as tightly as the expression does.
-/

namespace Migration

open Token (symbol)

/-- An operator of the level stands at the front of the row. -/
def operatorAhead (level : List String) (ts : List Token) : Bool :=
  match ts with
  | [] => false
  | t :: _ => t.kind == .symbol && level.contains t.text

namespace Parser

variable {c : Cursor} {r : List Token} {tail : Trivia}

theorem isAtOperator_of_at {ts : List Token} (hc : c.At ts tail) (level : List String) :
    c.isAtOperator level = operatorAhead level ts := by
  cases ts with
  | nil =>
    have hkind := congrArg Token.kind (hc.peekAt 0)
    rw [← Cursor.peek_eq_peekAt, Token.unplaced_kind] at hkind
    simp [Cursor.isAtOperator, hkind, operatorAhead]
  | cons t ts =>
    have hpeek := hc.peek
    rw [operatorAhead, ← hpeek]
    rfl

/-- What may follow an expression of level `k`. -/
structure Follow (k : Nat) (r : List Token) : Prop where
  dot : headIs r "." = false
  call : headIs r "(" = false
  operator : ∀ j, (hj : j < operatorLevels.length) → k ≤ j → operatorAhead operatorLevels[j] r = false

theorem Follow.mono {k j : Nat} (h : Follow k r) (hkj : k ≤ j) : Follow j r :=
  ⟨h.dot, h.call, fun i hi hji => h.operator i hi (by omega)⟩

/-- An operator may follow what binds more tightly than it does. -/
theorem follow_operator {op : String} (hop : operatorLevel op < operatorLevels.length)
    (lead : Trivia) : Follow (operatorLevel op + 1) (symbol lead op :: r) := by
  have hmem : ∀ s, (operatorLevels.any (·.contains s)) = false → op ≠ s := by
    rintro s hs rfl
    rw [operatorLevel, List.findIdx_lt_length] at hop
    obtain ⟨l, hl, hc⟩ := hop
    rw [List.any_eq_false] at hs
    exact hs l hl hc
  refine ⟨?_, ?_, fun j hj hk => ?_⟩
  · simpa using hmem "." (by decide)
  · simpa using hmem "(" (by decide)
  · rw [operatorAhead, Bool.eq_false_iff]
    intro h
    rw [Bool.and_eq_true] at h
    have hlevel := operatorLevel_of_mem hj h.2
    rw [Token.symbol_text] at hlevel
    omega

/-- The tokens after which an expression is complete. -/
def isExprEnd (text : String) : Bool := [";", ")", ","].contains text

theorem follow_end {text : String} (h : isExprEnd text = true) (lead : Trivia) :
    Follow 0 (symbol lead text :: r) := by
  have hall : ∀ s ∈ [";", ")", ","], s ≠ "." ∧ s ≠ "(" ∧
      ∀ l ∈ operatorLevels, l.contains s = false := by decide
  obtain ⟨h1, h2, h3⟩ := hall text (List.contains_iff_mem.mp h)
  refine ⟨by simpa using h1, by simpa using h2, fun j hj _ => ?_⟩
  rw [operatorAhead, Token.symbol_text, h3 _ (List.getElem_mem hj), Bool.and_false]

/-! ### The first token of an expression -/

/-- A token with which an expression may start. -/
def isExprStart (t : Token) : Bool :=
  match t.kind with
  | .number => Scan.isNumberText t.text.toList
  | .string | .character => true
  | .word => isNameText t.text || ["new", "true", "false", "null"].contains t.text
  | .symbol => ["(", "-"].contains t.text
  | .eof => false

/-- A literal is a minus and a number, or one token. -/
theorem literal_cases {l : Literal} (h : isLiteralText l.text = true) :
    (∃ digits, l.text = "-" ++ digits ∧ Scan.isNumberText digits.toList = true
      ∧ l.tokens = [symbol l.lead "-", ⟨.number, "", digits, 0⟩]) ∨
    (∃ kind, l.tokens = [⟨kind, l.lead, l.text, 0⟩] ∧ Scan.isLexeme kind l.text.toList = true
      ∧ ((kind = .number ∨ kind = .string ∨ kind = .character)
        ∨ (kind = .word ∧ ["true", "false", "null"].contains l.text = true))) := by
  cases htext : l.text.toList with
  | nil => simp [isLiteralText, htext] at h
  | cons ch cs =>
    by_cases hminus : ch = '-'
    · subst hminus
      refine .inl ⟨String.ofList cs, ?_, ?_, ?_⟩
      · rw [← String.toList_inj, htext]
        simp
      · simpa [isLiteralText, htext] using h
      · simp [Literal.tokens, htext]
    · simp only [isLiteralText, htext, Bool.and_eq_true, Bool.or_eq_true] at h
      refine .inr ⟨literalKind ch, by simp [Literal.tokens, htext], h.1, ?_⟩
      by_cases hword : literalKind ch = .word
      · refine .inr ⟨hword, ?_⟩
        simpa [hword] using h.2
      · refine .inl ?_
        revert hword
        unfold literalKind
        split
        · exact fun _ => .inl rfl
        · split
          · exact fun _ => .inr (.inl rfl)
          · split
            · exact fun _ => .inr (.inr rfl)
            · exact fun hw => absurd rfl hw

theorem isExprStart_literal {l : Literal} (h : isLiteralText l.text = true) :
    ∃ t ts, l.tokens = t :: ts ∧ isExprStart t = true := by
  rcases literal_cases h with ⟨digits, _, _, htokens⟩ | ⟨kind, htokens, hlex, hkind⟩
  · exact ⟨_, _, htokens, by simp [isExprStart]⟩
  · refine ⟨_, _, htokens, ?_⟩
    rcases hkind with (rfl | rfl | rfl) | ⟨rfl, hw⟩
    · exact hlex
    · rfl
    · rfl
    · simp only [isExprStart, Bool.or_eq_true]
      refine .inr ?_
      have hsub : ∀ s ∈ ["true", "false", "null"], ["new", "true", "false", "null"].contains s = true := by
        decide
      exact hsub _ (List.contains_iff_mem.mp hw)

/-- The first token of an expression. -/
theorem exprTokens_head : ∀ (e : Expr) (dotted : Bool), e.WellFormed dotted →
    ∃ t ts, e.tokens = t :: ts ∧ isExprStart t = true
  | .name i, _, h => ⟨_, [], rfl, by
      have hname : isNameText i.name = true := h
      simp [isExprStart, hname]⟩
  | .access ⟨_, target, _, _, _⟩, _, h => by
    obtain ⟨t, ts, htokens, hstart⟩ := exprTokens_head target true h.1
    exact ⟨t, _, by rw [Expr.tokens, htokens]; rfl, hstart⟩
  | .call ⟨_, none, _, member, _⟩, _, h => by
    have hname : isNameText member.name = true := h.2.1
    exact ⟨_, _, by rw [Expr.tokens_call]; rfl, by simp [isExprStart, hname]⟩
  | .call ⟨_, some target, _, _, _⟩, _, h => by
    obtain ⟨t, ts, htokens, hstart⟩ := exprTokens_head target true h.1
    exact ⟨t, _, by rw [Expr.tokens_memberCall, htokens]; rfl, hstart⟩
  | .create ⟨_, _, _, _⟩, _, _ => ⟨_, _, by rw [Expr.tokens_create], by simp [isExprStart]⟩
  | .literal _, _, h => isExprStart_literal h
  | .binary ⟨_, left, _, _, _⟩, _, h => by
    obtain ⟨t, ts, htokens, hstart⟩ := exprTokens_head left false h.1
    exact ⟨t, _, by rw [Expr.tokens, htokens]; rfl, hstart⟩
  | .parens ⟨_, _, _, _⟩, _, _ => ⟨_, _, by rw [Expr.tokens], by simp [isExprStart]⟩
termination_by structural e => e

/-- The text is that of a token with which an expression may start. -/
def isExprStartText (text : String) : Bool :=
  Scan.isNumberText text.toList || isNameText text
    || ["new", "true", "false", "null", "(", "-"].contains text

theorem headIs_exprTokens {e : Expr} {dotted : Bool} (h : e.WellFormed dotted) {text : String}
    (htext : isExprStartText text = false) : headIs e.tokens text = false := by
  obtain ⟨t, ts, htokens, hstart⟩ := exprTokens_head e dotted h
  rw [htokens, headIs_cons, Bool.eq_false_iff]
  intro his
  have ht := Token.text_of_is his
  rw [Bool.eq_false_iff] at htext
  refine htext ?_
  simp only [isExprStartText, Bool.or_eq_true]
  obtain ⟨kind, lead, text', offset⟩ := t
  obtain rfl : text' = text := ht
  cases kind with
  | number => exact .inl (.inl hstart)
  | string => simp [Token.is] at his
  | character => simp [Token.is] at his
  | word =>
    simp only [isExprStart, Bool.or_eq_true] at hstart
    rcases hstart with hn | hw
    · exact .inl (.inr hn)
    · refine .inr ?_
      have hsub : ∀ s ∈ ["new", "true", "false", "null"],
          ["new", "true", "false", "null", "(", "-"].contains s = true := by decide
      exact hsub _ (List.contains_iff_mem.mp hw)
  | symbol =>
    refine .inr ?_
    have hsub : ∀ s ∈ ["(", "-"], ["new", "true", "false", "null", "(", "-"].contains s = true := by
      decide
    exact hsub _ (List.contains_iff_mem.mp hstart)
  | eof => cases hstart

/-! ### Primary expressions -/

/-- An expression in front of what may follow it. -/
structure ExprSpec (tail : Trivia) (e : Expr) (c : Cursor) (r : List Token) : Prop where
  wellFormed : e.WellFormed false
  follow : Follow 0 r
  ahead : c.At (e.tokens ++ r) tail

theorem gives_literal {l : Literal} {kind : TokenKind}
    (hc : c.At (⟨kind, l.lead, l.text, 0⟩ :: r) tail) :
    Gives literal c r tail fun y => y.unnumbered = (Expr.literal l).unnumbered := by
  refine (gives_fresh hc).bind fun id c1 hc1 _ => (gives_bump hc1).bind fun t c2 hc2 ht => ?_
  refine Gives.pure hc2 ?_
  have hlead : t.lead = l.lead := congrArg Token.lead ht
  have htext : t.text = l.text := congrArg Token.text ht
  simp [Expr.unnumbered, hlead, htext]

theorem gives_negativeNumber {l : Literal} {digits : String} (hl : l.text = "-" ++ digits)
    (hc : c.At (symbol l.lead "-" :: ⟨.number, "", digits, 0⟩ :: r) tail) :
    Gives negativeNumber c r tail fun y => y.unnumbered = (Expr.literal l).unnumbered := by
  have hnext : (c.peekAt 1).unplaced = ⟨.number, "", digits, 0⟩ := hc.peekAt 1
  have hkind : (c.peekAt 1).kind = .number := congrArg Token.kind hnext
  have hlead : (c.peekAt 1).lead = "" := congrArg Token.lead hnext
  refine Gives.get (Gives.ite_neg (by simp [hkind, hlead]) ?_)
  refine (gives_fresh hc).bind fun id c1 hc1 _ => (gives_bump hc1).bind fun t c2 hc2 ht => ?_
  refine (gives_bump hc2).bind fun u c3 hc3 hu => Gives.pure hc3 ?_
  have htlead : t.lead = l.lead := congrArg Token.lead ht
  have hutext : u.text = digits := congrArg Token.text hu
  simp [Expr.unnumbered, htlead, hutext, hl]

theorem primaryOf_of_kind {self : Parser Expr}
    (h : c.peek.kind = .number ∨ c.peek.kind = .string ∨ c.peek.kind = .character) :
    primaryOf self c = literal c := by
  rcases h with h | h | h <;> simp only [primaryOf, get_bind, h]

theorem primaryOf_word {self : Parser Expr} (h : c.peek.kind = .word) :
    primaryOf self c = (if ["true", "false", "null"].contains c.peek.text then literal
      else if c.peek.text == "new" then creationOf self
      else if c.peek.isName then nameOrCallOf self
      else unexpected .expression) c := by
  simp only [primaryOf, get_bind, h]

theorem primaryOf_symbol {self : Parser Expr} (h : c.peek.kind = .symbol) :
    primaryOf self c = (if c.peek.text == "(" then parensOf self
      else if c.peek.text == "-" then negativeNumber
      else unexpected .expression) c := by
  simp only [primaryOf, get_bind, h]

theorem gives_primary_literal {self : Parser Expr} {l : Literal} (hl : isLiteralText l.text = true)
    (hc : c.At (l.tokens ++ r) tail) :
    Gives (primaryOf self) c r tail fun y => y.unnumbered = (Expr.literal l).unnumbered := by
  rcases literal_cases hl with ⟨digits, htext, _, htokens⟩ | ⟨kind, htokens, _, hkind⟩
  · rw [htokens] at hc
    have hpeek : c.peek.unplaced = symbol l.lead "-" := hc.peek
    have hk : c.peek.kind = .symbol := congrArg Token.kind hpeek
    have ht : c.peek.text = "-" := congrArg Token.text hpeek
    refine Gives.congr (primaryOf_symbol hk) ?_
    rw [ht]
    exact Gives.ite_neg (by decide) (Gives.ite_pos (by decide) (gives_negativeNumber htext hc))
  · rw [htokens] at hc
    have hpeek : c.peek.unplaced = ⟨kind, l.lead, l.text, 0⟩ := hc.peek
    have hk : c.peek.kind = kind := congrArg Token.kind hpeek
    have ht : c.peek.text = l.text := congrArg Token.text hpeek
    rcases hkind with hkind | ⟨rfl, hw⟩
    · exact Gives.congr (primaryOf_of_kind (by rw [hk]; exact hkind)) (gives_literal hc)
    · refine Gives.congr (primaryOf_word hk) (Gives.ite_pos ?_ (gives_literal hc))
      rw [ht]
      exact hw

theorem not_reserved_of_isNameText {s : String} (h : isNameText s = true) :
    reservedWords.contains s = false := by
  simp only [isNameText, Token.isName, Bool.and_eq_true, Token.word_text, Bool.not_eq_true'] at h
  exact h.2.1.2

/-- A name at the cursor leads to a name or a call. -/
theorem primaryOf_name {self : Parser Expr} {lead : Trivia} {s : String}
    (hs : isNameText s = true) (hc : c.At (.word lead s :: r) tail) :
    primaryOf self c = nameOrCallOf self c := by
  have hpeek : c.peek.unplaced = Token.word lead s := hc.peek
  have hk : c.peek.kind = .word := congrArg Token.kind hpeek
  have ht : c.peek.text = s := congrArg Token.text hpeek
  have hres := not_reserved_of_isNameText hs
  have hall : ∀ w ∈ ["true", "false", "null", "new"], reservedWords.contains w = true := by decide
  have hne : ∀ w ∈ ["true", "false", "null", "new"], s ≠ w := by
    rintro w hw rfl
    rw [hall s hw] at hres
    cases hres
  rw [primaryOf_word hk, ht, if_neg, if_neg, if_pos]
  · rw [isName_of_at hc]
    exact isName_of_isNameText hs _
  · simpa using hne "new" (by decide)
  · intro h
    simp only [List.contains_cons, List.contains_nil, Bool.or_false, Bool.or_eq_true,
      beq_iff_eq] at h
    rcases h with h | h | h
    · exact hne "true" (by decide) h
    · exact hne "false" (by decide) h
    · exact hne "null" (by decide) h

section

variable {self : Parser Expr} {n : Nat}
  (hself : ∀ e c r, c.rest.length < n → ExprSpec tail e c r →
    Gives self c r tail fun y => y.unnumbered = e.unnumbered)

include hself

/-- Arguments, given that the expressions in them are accepted. -/
theorem gives_argumentsOf {l : Listing Expr} (hl : Expr.WellFormedAll l.items)
    (hn : c.rest.length ≤ n) (hc : c.At (l.tokens "(" ")" Expr.tokens ++ r) tail) :
    Gives (argumentsOf self) c r tail fun l' =>
      l'.lead = l.lead ∧ l'.items.map (Padded.map Expr.unnumbered)
        = l.items.map (Padded.map Expr.unnumbered) ∧ l'.close = l.close := by
  obtain ⟨hitems, hlast⟩ := itemsOk_iff.mp ((Expr.wellFormedAll_iff _).mp hl)
  have hitem : ∀ p ∈ l.items, ∀ c' r, c'.rest.length + 1 < c.rest.length + 1 →
      c'.At (p.elem.tokens ++ r) tail → Follow 0 r →
      Gives self c' r tail fun y => y.unnumbered = p.elem.unnumbered :=
    fun p hp c' r hb hc' hr => hself p.elem c' r (by omega) ⟨hitems p hp, hr, hc'⟩
  exact gives_listing (by decide) (by decide) (by decide) hitem
    (fun p hp => ⟨Expr.tokens_ne_nil _, headIs_exprTokens (hitems p hp) (by decide)⟩)
    (fun after r => follow_end (by decide) after) (fun after r => follow_end (by decide) after) hlast
    (Nat.lt_succ_self _) hc

theorem gives_parens {id : NodeId} {lead close : Trivia} {inner : Expr}
    (hinner : inner.WellFormed false) (hn : c.rest.length ≤ n)
    (hc : c.At ((Expr.parens ⟨id, lead, inner, close⟩).tokens ++ r) tail) :
    Gives (primaryOf self) c r tail fun y =>
      y.unnumbered = (Expr.parens ⟨id, lead, inner, close⟩).unnumbered := by
  have hc0 : c.At (symbol lead "(" :: (inner.tokens ++ (symbol close ")" :: r))) tail := by
    simpa [Expr.tokens] using hc
  have hpeek : c.peek.unplaced = symbol lead "(" := hc0.peek
  have hk : c.peek.kind = .symbol := congrArg Token.kind hpeek
  have ht : c.peek.text = "(" := congrArg Token.text hpeek
  refine Gives.congr (primaryOf_symbol hk) (Gives.ite_pos (by rw [ht]; decide) ?_)
  refine (gives_fresh hc0).bind fun id' c1 hc1 _ => (gives_bump hc1).bind fun t c2 hc2 ht => ?_
  have hlen0 := hc0.length.trans hc1.length.symm
  have hlen := hc1.length_cons hc2
  refine (hself inner c2 _ (by omega) ⟨hinner, follow_end (by decide) close, hc2⟩).bind
    fun e c3 hc3 he => ?_
  refine (gives_expect (by decide) hc3).bind fun close' c4 hc4 hclose => Gives.pure hc4 ?_
  have hlead : t.lead = lead := congrArg Token.lead ht
  simp [Expr.unnumbered, hlead, he, hclose]

theorem gives_create {id : NodeId} {lead : Trivia} {type : TypeName} {args : Listing Expr}
    (htype : type.WellFormed) (hargs : Expr.WellFormedAll args.items) (hn : c.rest.length ≤ n)
    (hc : c.At ((Expr.create ⟨id, lead, type, args⟩).tokens ++ r) tail) :
    Gives (primaryOf self) c r tail fun y =>
      y.unnumbered = (Expr.create ⟨id, lead, type, args⟩).unnumbered := by
  have hc0 : c.At (.word lead "new" :: (type.tokens ++ (args.tokens "(" ")" Expr.tokens ++ r))) tail := by
    simpa [Expr.tokens_create] using hc
  have hpeek : c.peek.unplaced = Token.word lead "new" := hc0.peek
  have hk : c.peek.kind = .word := congrArg Token.kind hpeek
  have ht : c.peek.text = "new" := congrArg Token.text hpeek
  refine Gives.congr (primaryOf_word hk) ?_
  rw [ht]
  refine Gives.ite_neg (by decide) (Gives.ite_pos (by decide) ?_)
  refine (gives_fresh hc0).bind fun id' c1 hc1 _ => (gives_bump hc1).bind fun t c2 hc2 ht => ?_
  have hlen0 := hc0.length.trans hc1.length.symm
  have hlen := hc1.length_cons hc2
  have hfollow : TypeFollow type (args.tokens "(" ")" Expr.tokens ++ r) :=
    typeFollow_of_is (Token.symbol_is_self args.lead "(") (by decide)
  refine (gives_typeName htype hfollow hc2).bind fun type' c3 hc3 htype' => ?_
  have hlen3 := hc2.length_le hc3
  refine (gives_argumentsOf hself hargs (by omega) hc3).bind fun args' c4 hc4 hargs' => ?_
  refine Gives.pure hc4 ?_
  have hlead : t.lead = lead := congrArg Token.lead ht
  obtain ⟨opened, items, closed⟩ := args
  obtain ⟨opened', items', closed'⟩ := args'
  obtain ⟨rfl, hitems, rfl⟩ := hargs'
  simp only [Expr.unnumbered, Expr.unnumberedAll_eq, hlead, htype']
  rw [hitems]

theorem gives_call {id : NodeId} {member : Ident} {args : Listing Expr}
    (hmember : isNameText member.name = true) (hargs : Expr.WellFormedAll args.items)
    (hn : c.rest.length ≤ n)
    (hc : c.At ((Expr.call ⟨id, none, "", member, args⟩).tokens ++ r) tail) :
    Gives (primaryOf self) c r tail fun y =>
      y.unnumbered = (Expr.call ⟨id, none, "", member, args⟩).unnumbered := by
  have hc0 : c.At (member.tokens ++ (args.tokens "(" ")" Expr.tokens ++ r)) tail := by
    simpa [Expr.tokens_call] using hc
  refine Gives.congr (primaryOf_name hmember hc0) (Gives.get (Gives.ite_pos ?_ ?_))
  · rw [hc0.peekAt_is 1 (by decide)]
    exact Token.symbol_is_self args.lead "("
  · refine (gives_fresh hc0).bind fun id' c1 hc1 _ => ?_
    refine (gives_ident hmember hc1).bind fun member' c2 hc2 hmember' => ?_
    have hlen0 := hc0.length.trans hc1.length.symm
    have hlen := hc1.length_le hc2
    refine (gives_argumentsOf hself hargs (by omega) hc2).bind fun args' c3 hc3 hargs' => ?_
    refine Gives.pure hc3 ?_
    obtain ⟨opened, items, closed⟩ := args
    obtain ⟨opened', items', closed'⟩ := args'
    obtain ⟨rfl, hitems, rfl⟩ := hargs'
    simp only [Expr.unnumbered, Expr.unnumberedAll_eq, hmember']
    rw [hitems]

/-! ### Accesses and calls -/

omit hself in
theorem gives_selection_access {target target' : Expr}
    (htarget : target'.unnumbered = target.unnumbered) {id : NodeId} {dot : Trivia} {member : Ident}
    (hmember : isSegmentText (headIs r ".") member.name = true) (hopen : headIs r "(" = false)
    (hc : c.At (symbol dot "." :: (member.tokens ++ r)) tail) :
    Gives (selectionOf self target') c r tail fun y =>
      y.unnumbered = (Expr.access ⟨id, target, dot, member, none⟩).unnumbered := by
  refine (gives_fresh hc).bind fun id' c1 hc1 _ => (gives_bump hc1).bind fun t c2 hc2 ht => ?_
  refine (gives_memberName hmember hc2).bind fun member' c3 hc3 hmember' => ?_
  refine Gives.get (Gives.ite_neg ?_ (Gives.pure hc3 ?_))
  · rw [hc3.isAt (by decide), hopen]
    decide
  · have hlead : t.lead = dot := congrArg Token.lead ht
    simp [Expr.unnumbered, htarget, hlead, hmember']

theorem gives_selection_call {target target' : Expr}
    (htarget : target'.unnumbered = target.unnumbered) {id : NodeId} {dot : Trivia} {member : Ident}
    {args : Listing Expr} (hmember : isNameText member.name = true)
    (hargs : Expr.WellFormedAll args.items) (hn : c.rest.length ≤ n)
    (hc : c.At (symbol dot "." :: (member.tokens ++ (args.tokens "(" ")" Expr.tokens ++ r))) tail) :
    Gives (selectionOf self target') c r tail fun y =>
      y.unnumbered = (Expr.call ⟨id, some target, dot, member, args⟩).unnumbered := by
  refine (gives_fresh hc).bind fun id' c1 hc1 _ => (gives_bump hc1).bind fun t c2 hc2 ht => ?_
  have hlen0 := hc.length.trans hc1.length.symm
  have hlen1 := hc1.length_cons hc2
  refine (gives_memberName (isSegmentText_of_isNameText _ hmember) hc2).bind
    fun member' c3 hc3 hmember' => ?_
  have hlen2 := hc2.length_le hc3
  refine Gives.get (Gives.ite_pos ?_ ?_)
  · rw [hc3.isAt (by decide)]
    exact Token.symbol_is_self args.lead "("
  · refine (gives_argumentsOf hself hargs (by omega) hc3).bind fun args' c4 hc4 hargs' => ?_
    refine Gives.pure hc4 ?_
    have hlead : t.lead = dot := congrArg Token.lead ht
    obtain ⟨opened, items, closed⟩ := args
    obtain ⟨opened', items', closed'⟩ := args'
    obtain ⟨rfl, hitems, rfl⟩ := hargs'
    simp only [Expr.unnumbered, Expr.unnumberedAll_eq, htarget, hlead, hmember']
    rw [hitems]

/-- The loop over accesses and calls rebuilds the spine of targets. -/
theorem reaches_operand : ∀ (e : Expr) (c : Cursor) (r : List Token), c.rest.length ≤ n →
    e.WellFormed (headIs r ".") → e.level = operatorLevels.length → headIs r "(" = false →
    c.At (e.tokens ++ r) tail →
    Reaches (operandOf self) c r tail (·.isAt ".") (selectionOf self) Expr.unnumbered e
  | .name i, c, r, _, hwf, _, hopen, hc => by
    refine Reaches.start (Gives.congr (primaryOf_name hwf hc) (Gives.get (Gives.ite_neg ?_ ?_)))
    · rw [hc.peekAt_is 1 (by decide)]
      show ¬ headIs r "(" = true
      rw [hopen]
      decide
    · refine (gives_ident hwf hc).bind fun i' c1 hc1 hi => Gives.pure hc1 ?_
      simp [Expr.unnumbered, hi]
  | .access ⟨id, target, dot, member, owner⟩, c, r, hn, hwf, _, hopen, hc => by
    obtain ⟨htarget, hlevel, hmember, rfl⟩ := hwf
    have hc0 : c.At (target.tokens ++ (symbol dot "." :: (member.tokens ++ r))) tail := by
      simpa [Expr.tokens] using hc
    refine (reaches_operand target c _ hn (by simpa using htarget) hlevel (by simp) hc0).round ?_ ?_ ?_
    · simp only [List.length_cons, List.length_append]
      omega
    · intro c' hc'
      rw [hc'.isAt (by decide)]
      exact Token.symbol_is_self dot "."
    · exact fun target' c' htarget' hc' => gives_selection_access htarget' hmember hopen hc'
  | .call ⟨id, none, dot, member, args⟩, c, r, hn, hwf, _, _, hc => by
    obtain ⟨rfl, hmember, hargs⟩ := hwf
    exact Reaches.start (gives_call hself hmember hargs hn hc)
  | .call ⟨id, some target, dot, member, args⟩, c, r, hn, hwf, _, _, hc => by
    obtain ⟨htarget, hlevel, hmember, hargs⟩ := hwf
    have hc0 : c.At (target.tokens ++ (symbol dot "." ::
        (member.tokens ++ (args.tokens "(" ")" Expr.tokens ++ r)))) tail := by
      simpa [Expr.tokens_memberCall] using hc
    have hlen := hc0.length
    rw [List.length_append] at hlen
    refine (reaches_operand target c _ hn (by simpa using htarget) hlevel (by simp) hc0).round ?_ ?_ ?_
    · simp only [List.length_cons, List.length_append]
      omega
    · intro c' hc'
      rw [hc'.isAt (by decide)]
      exact Token.symbol_is_self dot "."
    · intro target' c' htarget' hc'
      have hlen' := hc'.length
      exact gives_selection_call hself htarget' hmember hargs (by omega) hc'
  | .create ⟨id, lead, type, args⟩, c, r, hn, hwf, _, _, hc =>
    Reaches.start (gives_create hself hwf.1 hwf.2 hn hc)
  | .literal l, c, r, _, hwf, _, _, hc => Reaches.start (gives_primary_literal hwf hc)
  | .binary ⟨id, left, opLead, op, right⟩, c, r, _, hwf, hlevel, _, _ => by
    have hlt := hwf.2.2.1
    rw [Expr.level] at hlevel
    omega
  | .parens ⟨id, lead, inner, close⟩, c, r, hn, hwf, _, _, hc =>
    Reaches.start (gives_parens hself hwf hn hc)
termination_by structural e => e

/-! ### Operations -/

omit hself in
theorem gives_operation {right' : Parser Expr} {left left' right : Expr}
    (hleft : left'.unnumbered = left.unnumbered) {id : NodeId} {opLead : Trivia} {op : String}
    (hright : ∀ c', c'.rest.length < c.rest.length → c'.At (right.tokens ++ r) tail →
      Gives right' c' r tail fun y => y.unnumbered = right.unnumbered)
    (hc : c.At (symbol opLead op :: (right.tokens ++ r)) tail) :
    Gives (operationOf right' left') c r tail fun y =>
      y.unnumbered = (Expr.binary ⟨id, left, opLead, op, right⟩).unnumbered := by
  refine (gives_fresh hc).bind fun id' c1 hc1 _ => (gives_bump hc1).bind fun t c2 hc2 ht => ?_
  have hlen0 := hc.length.trans hc1.length.symm
  have hlen := hc1.length_cons hc2
  refine (hright c2 (by omega) hc2).bind fun right'' c3 hc3 hr => Gives.pure hc3 ?_
  have hlead : t.lead = opLead := congrArg Token.lead ht
  have htext : t.text = op := congrArg Token.text ht
  simp [Expr.unnumbered, hleft, hlead, htext, hr]

omit hself in
theorem operatorAhead_self {op : String} (hop : operatorLevel op < operatorLevels.length)
    (lead : Trivia) :
    operatorAhead (operatorLevels[operatorLevel op]) (symbol lead op :: r) = true := by
  have hfound : operatorLevels[operatorLevel op].contains op = true :=
    List.findIdx_getElem (p := fun level : List String => level.contains op)
  rw [operatorAhead, Token.symbol_text, hfound]
  rfl

omit hself in
/-- The loop over the operators of a level rebuilds the spine of left operands. -/
theorem reaches_operations {k : Nat} (hpos : 1 ≤ k) (hk : k < operatorLevels.length) {tight : Parser Expr}
    (htight : ∀ e c r, c.rest.length ≤ n → Expr.WellFormed false e → k + 1 ≤ e.level →
      Follow (k + 1) r → c.At (e.tokens ++ r) tail →
      Gives tight c r tail fun y => y.unnumbered = e.unnumbered) :
    ∀ (e : Expr) (c : Cursor) (r : List Token), c.rest.length ≤ n → e.WellFormed false →
      k ≤ e.level → Follow (k + 1) r → c.At (e.tokens ++ r) tail →
      Reaches (tight >>= repeatWhile (Cursor.isAtOperator operatorLevels[k]) (operationOf tight))
        c r tail (Cursor.isAtOperator operatorLevels[k]) (operationOf tight) Expr.unnumbered e
  | .binary ⟨id, left, opLead, op, right⟩, c, r, hn, hwf, hlevel, hfollow, hc => by
    by_cases hop : k = operatorLevel op
    · obtain ⟨hleft, hright, _, _, hle, hlt⟩ := hwf
      subst hop
      have hc0 : c.At (left.tokens ++ (symbol opLead op :: (right.tokens ++ r))) tail := by
        simpa [Expr.tokens] using hc
      have hlen := hc0.length
      rw [List.length_append] at hlen
      refine (reaches_operations hpos hk htight left c _ hn hleft hle (follow_operator hk opLead)
        hc0).round ?_ ?_ ?_
      · simp only [List.length_cons, List.length_append]
        omega
      · intro c' hc'
        rw [isAtOperator_of_at hc']
        exact operatorAhead_self hk opLead
      · intro left' c' hleft' hc'
        have hlen' := hc'.length
        refine gives_operation hleft' (fun d hd hat => ?_) hc'
        exact htight right d r (by omega) hright (by omega) hfollow hat
    · refine Reaches.start (htight _ c r hn hwf ?_ hfollow hc)
      rw [Expr.level] at hlevel ⊢
      omega
  | .name i, c, r, hn, hwf, _, hfollow, hc =>
    Reaches.start (htight (.name i) c r hn hwf hk hfollow hc)
  | .access a, c, r, hn, hwf, _, hfollow, hc =>
    Reaches.start (htight (.access a) c r hn hwf hk hfollow hc)
  | .call a, c, r, hn, hwf, _, hfollow, hc =>
    Reaches.start (htight (.call a) c r hn hwf hk hfollow hc)
  | .create a, c, r, hn, hwf, _, hfollow, hc =>
    Reaches.start (htight (.create a) c r hn hwf hk hfollow hc)
  | .literal l, c, r, hn, hwf, _, hfollow, hc =>
    Reaches.start (htight (.literal l) c r hn hwf hk hfollow hc)
  | .parens p, c, r, hn, hwf, _, hfollow, hc =>
    Reaches.start (htight (.parens p) c r hn hwf hk hfollow hc)
termination_by structural e => e

omit hself in
theorem level_le {e : Expr} {dotted : Bool} (h : e.WellFormed dotted) :
    e.level ≤ operatorLevels.length := by
  match e, h with
  | .binary ⟨_, _, _, _, _⟩, h => exact Nat.le_of_lt h.2.2.1
  | .name _, _ => exact Nat.le_refl _
  | .access _, _ => exact Nat.le_refl _
  | .call _, _ => exact Nat.le_refl _
  | .create _, _ => exact Nat.le_refl _
  | .literal _, _ => exact Nat.le_refl _
  | .parens _, _ => exact Nat.le_refl _

/-- Operations of level `k` or tighter ones. -/
theorem gives_operationsOf (m : Nat) : ∀ k, 1 ≤ k → k + m = operatorLevels.length →
    ∀ e c r, c.rest.length ≤ n → Expr.WellFormed false e → k ≤ e.level → Follow k r →
      c.At (e.tokens ++ r) tail → Gives (operationsOf self (operatorLevels.drop k)) c r tail
        fun y => y.unnumbered = e.unnumbered := by
  induction m with
  | zero =>
    intro k _ hk e c r hn hwf hlevel hfollow hc
    have hmax := level_le hwf
    rw [List.drop_eq_nil_of_le (by omega)]
    refine (reaches_operand hself e c r hn (by rw [hfollow.dot]; exact hwf) (by omega) hfollow.call
      hc).done fun c' hc' => ?_
    rw [hc'.isAt (by decide), hfollow.dot]
  | succ m ih =>
    intro k hpos hk e c r hn hwf hlevel hfollow hc
    have hlt : k < operatorLevels.length := by omega
    rw [List.drop_eq_getElem_cons hlt]
    refine (reaches_operations hpos hlt (ih (k + 1) (by omega) (by omega)) e c r hn hwf hlevel
      (hfollow.mono (Nat.le_succ k)) hc).done fun c' hc' => ?_
    rw [isAtOperator_of_at hc']
    exact hfollow.operator k hlt (Nat.le_refl k)

/-- An expression, given that the expressions inside it are accepted. -/
theorem gives_exprOf (e : Expr) (c : Cursor) (r : List Token) (hn : c.rest.length < n + 1)
    (he : ExprSpec tail e c r) :
    Gives (exprOf self) c r tail fun y => y.unnumbered = e.unnumbered := by
  obtain ⟨hwf, hfollow, hc⟩ := he
  have hops := gives_operationsOf hself 6 1 (Nat.le_refl 1) rfl
  have hstop : ∀ c' : Cursor, c'.At r tail → c'.isAtOperator ["="] = false := by
    intro c' hc'
    rw [isAtOperator_of_at hc']
    exact hfollow.operator 0 (by decide) (Nat.le_refl 0)
  rw [exprOf_eq]
  by_cases hlevel : 1 ≤ e.level
  · exact (Reaches.start (hops e c r (by omega) hwf hlevel (hfollow.mono (Nat.zero_le 1)) hc)).done hstop
  · -- An assignment: its left side is no assignment, its right side may be one.
    match e, hwf, hlevel, hc with
    | .binary ⟨id, left, opLead, op, right⟩, ⟨hleft, hright, hop, hpos, _, _⟩, hlevel, hc =>
      rw [Expr.level] at hlevel
      have hzero : operatorLevel op = 0 := by omega
      have hc0 : c.At (left.tokens ++ (symbol opLead op :: (right.tokens ++ r))) tail := by
        simpa [Expr.tokens] using hc
      have hlen := hc0.length
      rw [List.length_append] at hlen
      have hfollow' := follow_operator (r := right.tokens ++ r) hop opLead
      have hahead := operatorAhead_self (r := right.tokens ++ r) hop opLead
      simp only [hzero] at hfollow' hahead
      refine ((Reaches.start (hops left c _ (by omega) hleft hpos hfollow' hc0)).round ?_ ?_ ?_).done hstop
      · simp only [List.length_cons, List.length_append]
        omega
      · intro c' hc'
        rw [isAtOperator_of_at hc']
        exact hahead
      · intro left' c' hleft' hc'
        have hlen' := hc'.length
        exact gives_operation hleft' (fun d hd hat => hself right d r (by omega)
          ⟨hright, hfollow, hat⟩) hc'
    | .name _, _, hlevel, _ => exact absurd (show 1 ≤ operatorLevels.length by decide) hlevel
    | .access _, _, hlevel, _ => exact absurd (show 1 ≤ operatorLevels.length by decide) hlevel
    | .call _, _, hlevel, _ => exact absurd (show 1 ≤ operatorLevels.length by decide) hlevel
    | .create _, _, hlevel, _ => exact absurd (show 1 ≤ operatorLevels.length by decide) hlevel
    | .literal _, _, hlevel, _ => exact absurd (show 1 ≤ operatorLevels.length by decide) hlevel
    | .parens _, _, hlevel, _ => exact absurd (show 1 ≤ operatorLevels.length by decide) hlevel

end

/-- **Expressions are read back.** -/
theorem gives_expr {e : Expr} (hwf : e.WellFormed false) (hfollow : Follow 0 r)
    (hc : c.At (e.tokens ++ r) tail) :
    Gives expr c r tail fun y => y.unnumbered = e.unnumbered :=
  gives_fix (fun _ _ hself => gives_exprOf hself) ⟨hwf, hfollow, hc⟩

end Parser

end Migration
