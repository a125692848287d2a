import Migration.Proofs.Grammar.CompleteExpressions
import Migration.Proofs.Grammar.LookAhead
import Migration.Proofs.Grammar.SoundDeclarations

/-!
# Expressions that look like variables

An expression such as `a < b > c = 5` is written with the tokens of a variable, and where it is a
statement, a variable is what is read. Main result (`Expr.exists_variable`): an expression that looks
like a variable and does not start with a modifier is written exactly like a variable that can be read.

It rests on where the signs `=` and `;`, with one of which the look-ahead ends, stand in an expression:
behind an opening parenthesis, unless the expression is an assignment (`Expr.guarded`).
-/

namespace Migration

open Token (symbol word)

/-! ### Signs behind parentheses -/

/-- The token is one with which the look-ahead for a variable ends. -/
def Token.isSign (t : Token) : Bool := t.is "=" || t.is ";"

/-- In front of a sign in the row stands an opening parenthesis. -/
def Guarded : List Token → Prop
  | [] => True
  | t :: ts => t.is "(" = true ∨ t.isSign = false ∧ Guarded ts

theorem guarded_append {as bs : List Token} (ha : Guarded as) (hb : Guarded bs) :
    Guarded (as ++ bs) := by
  induction as with
  | nil => exact hb
  | cons a as ih => exact ha.imp_right fun ⟨hsign, ha⟩ => ⟨hsign, ih ha⟩

theorem guarded_of_forall {ts : List Token} (h : ∀ t ∈ ts, t.isSign = false) : Guarded ts := by
  induction ts with
  | nil => trivial
  | cons t ts ih =>
    obtain ⟨ht, hts⟩ := List.forall_mem_cons.mp h
    exact .inr ⟨ht, ih hts⟩

theorem Token.isSign_eq_false {t : Token} (h : ["=", ";"].contains t.text = false) :
    t.isSign = false := by
  rw [Token.isSign, Bool.or_eq_false_iff]
  simp only [List.contains_cons, List.contains_nil, Bool.or_false, Bool.or_eq_false_iff] at h
  simp [Token.is, h]

theorem isSign_of_isTypePart {t : Token} (h : t.isTypePart = true) : t.isSign = false := by
  rw [Token.isSign, Token.is_of_isTypePart h (by decide) (by decide),
    Token.is_of_isTypePart h (by decide) (by decide)]
  rfl

theorem isSign_word {lead : Trivia} {s : String} (h : Scan.isWordText s.toList = true) :
    (word lead s).isSign = false := isSign_of_isTypePart (isTypePart_word h)

/-- What is no symbol is no sign. -/
theorem isSign_of_kind {t : Token} (hl : t.Lexical) (hk : t.kind ≠ .symbol) : t.isSign = false := by
  have hnot (s : String) (hs : Token.isSymbolText s = true) : t.is s = false := by
    rw [Bool.eq_false_iff]
    intro his
    exact hk (congrArg Token.kind (Token.unplaced_of_is_symbol hs hl his))
  rw [Token.isSign, hnot "=" (by decide), hnot ";" (by decide)]
  rfl

theorem isSign_op {lead : Trivia} {op : String} (h : operatorLevel op < operatorLevels.length)
    (hpos : 1 ≤ operatorLevel op) : (symbol lead op).isSign = false := by
  refine Token.isSign_eq_false ?_
  rw [Bool.eq_false_iff]
  intro hop
  have hmem : op = "=" ∨ op = ";" := by simpa using hop
  rcases hmem with rfl | rfl
  · exact absurd hpos (by decide)
  · exact absurd h (by decide)

theorem Literal.guarded {l : Literal} (h : isLiteralText l.text = true) : Guarded l.tokens := by
  rcases Parser.literal_cases h with ⟨digits, _, hdigits, htokens⟩ | ⟨kind, htokens, hlex, hkind⟩
  · rw [htokens]
    exact .inr ⟨rfl, .inr ⟨isSign_of_kind hdigits (fun h => by cases h), trivial⟩⟩
  · rw [htokens]
    refine .inr ⟨isSign_of_kind hlex fun hsymbol => ?_, trivial⟩
    rcases hkind with (rfl | rfl | rfl) | ⟨rfl, _⟩ <;> cases hsymbol

/-- **No sign stands in an expression but behind an opening parenthesis**, unless the expression is an
assignment. -/
theorem Expr.guarded : (e : Expr) → {dotted : Bool} → e.WellFormed dotted → 1 ≤ e.level →
    Guarded e.tokens
  | .name _, _, h, _ => .inr ⟨isSign_word (isWordText_of_isNameText h), trivial⟩
  | .access ⟨_, target, _, _, _⟩, _, ⟨htarget, hlevel, hname, _⟩, _ =>
    guarded_append (target.guarded htarget (by rw [hlevel]; decide))
      (.inr ⟨rfl, .inr ⟨isSign_word (isWordText_of_isSegmentText hname), trivial⟩⟩)
  | .call ⟨_, none, _, _, ⟨_, _, _⟩⟩, _, ⟨_, hname, _⟩, _ =>
    .inr ⟨isSign_word (isWordText_of_isNameText hname), .inl rfl⟩
  | .call ⟨_, some target, _, _, ⟨_, _, _⟩⟩, _, ⟨htarget, hlevel, hname, _⟩, _ =>
    guarded_append (target.guarded htarget (by rw [hlevel]; decide))
      (.inr ⟨rfl, .inr ⟨isSign_word (isWordText_of_isNameText hname), .inl rfl⟩⟩)
  | .create ⟨_, _, type, ⟨_, _, _⟩⟩, _, ⟨htype, _⟩, _ => by
    have hpart := guarded_of_forall fun t ht => isSign_of_isTypePart (type.isTypePart_tokens htype t ht)
    rw [Expr.tokens_create]
    exact .inr ⟨rfl, guarded_append hpart (.inl rfl)⟩
  | .literal l, _, h, _ => Literal.guarded h
  | .binary ⟨_, left, _, op, right⟩, _, ⟨hleft, hright, hop, hone, hle, hlt⟩, hlevel => by
    have hpos : 1 ≤ operatorLevel op := hlevel
    have hlt := hlt.resolve_left (by omega)
    exact guarded_append (left.guarded hleft hone)
      (.inr ⟨isSign_op hop hpos, right.guarded hright (by omega)⟩)
  | .parens ⟨_, _, _, _⟩, _, _, _ => .inl rfl
termination_by structural e => e

/-! ### Where the look-ahead ends -/

/-- A row without signs and opening parentheses, then a sign, can only start where the first sign is. -/
theorem Guarded.cut {as bs front more : List Token} {x s : Token} (h : Guarded as)
    (hx : x.isSign = true) (hs : s.isSign = true)
    (hfront : ∀ t ∈ front, t.is "(" = false ∧ t.isSign = false)
    (hrow : as ++ x :: bs = front ++ s :: more) : as = front ∧ x = s ∧ bs = more := by
  induction as generalizing front with
  | nil =>
    cases front with
    | nil =>
      cases hrow
      exact ⟨rfl, rfl, rfl⟩
    | cons t front =>
      cases hrow
      rw [(hfront x List.mem_cons_self).2] at hx
      cases hx
  | cons a as ih =>
    cases front with
    | nil =>
      cases hrow
      rcases h with hparen | ⟨hsign, _⟩
      · rw [Token.isSign_eq_false (by rw [Token.text_of_is hparen]; decide)] at hs
        cases hs
      · rw [hs] at hsign
        cases hsign
    | cons t front =>
      obtain ⟨rfl, hrest⟩ := List.cons.inj hrow
      obtain ⟨⟨hparen, _⟩, hfront⟩ := List.forall_mem_cons.mp hfront
      rcases h with h | ⟨_, h⟩
      · rw [h] at hparen
        cases hparen
      · obtain ⟨rfl, hxs, hbs⟩ := ih h hfront hrest
        exact ⟨rfl, hxs, hbs⟩

/-- An expression of the loosest level is an assignment. -/
theorem Expr.eq_assignment : (e : Expr) → e.level = 0 → ∃ id left opLead right,
    e = .binary ⟨id, left, opLead, "=", right⟩
  | .binary ⟨id, left, opLead, op, right⟩, h => by
    have hop : ["="].contains op = true := by
      have hzero : operatorLevel op = 0 := h
      rw [operatorLevel, operatorLevels, List.findIdx_cons] at hzero
      by_contra hother
      rw [Bool.not_eq_true] at hother
      rw [hother] at hzero
      cases hzero
    obtain rfl : op = "=" := by simpa using hop
    exact ⟨id, left, opLead, right, rfl⟩
  | .name _, h => by cases h
  | .access _, h => by cases h
  | .call _, h => by cases h
  | .create _, h => by cases h
  | .literal _, h => by cases h
  | .parens _, h => by cases h

/-- What stands in front of the first sign of an expression statement, and behind it: the statement is
an assignment, or all of it stands in front of its semicolon. -/
theorem Expr.cut_at_sign {e : Expr} (hwf : e.WellFormed false) {semi : Trivia} {s : Token}
    {front more : List Token} (hfront : ∀ t ∈ front, t.is "(" = false ∧ t.isSign = false)
    (hs : s.isSign = true) (hrow : e.tokens ++ [symbol semi ";"] = front ++ s :: more) :
    ∃ value : Option Initializer, (∀ i ∈ value, i.value.WellFormed false)
      ∧ e.tokens = front ++ optionTokens Initializer.tokens value := by
  by_cases hlevel : 1 ≤ e.level
  · obtain ⟨htokens, _, _⟩ := (e.guarded hwf hlevel).cut rfl hs hfront hrow
    exact ⟨none, nofun, by rw [htokens]; exact (List.append_nil _).symm⟩
  · obtain ⟨id, left, opLead, right, rfl⟩ :=
      e.eq_assignment (Nat.lt_one_iff.mp (Nat.not_le.mp hlevel))
    obtain ⟨hleft, hright, _, hone, _, _⟩ := hwf
    have hsplit : left.tokens ++ symbol opLead "=" :: (right.tokens ++ [symbol semi ";"])
        = front ++ s :: more := by
      rw [← hrow, Expr.tokens, List.append_assoc, List.cons_append]
    obtain ⟨htokens, _, _⟩ := (left.guarded hleft hone).cut rfl hs hfront hsplit
    refine ⟨some ⟨opLead, right⟩, ?_, ?_⟩
    · rintro i ⟨⟩
      exact hright
    · rw [← htokens]
      rfl

/-! ### Variables -/

theorem isMarker_of_isExprStart {t : Token} (h : Parser.isExprStart t = true) (hl : t.Lexical) :
    t.isMarker = false := by
  obtain ⟨kind, lead, text, offset⟩ := t
  rw [Bool.eq_false_iff]
  intro hmarker
  obtain ⟨cs, htext⟩ : ∃ cs, text.toList = '@' :: cs :=
    List.head?_eq_some_iff.mp (beq_iff_eq.mp hmarker)
  rw [Token.Lexical, htext] at hl
  cases kind with
  | word =>
    rw [Parser.isExprStart, Bool.or_eq_true] at h
    rcases h with hname | hliteral
    · rw [isNameText, Token.isName, Bool.and_eq_true, Bool.and_eq_true, Bool.not_eq_true'] at hname
      exact Bool.eq_false_iff.mp hname.2.2 hmarker
    · have hall : ∀ s ∈ ["new", "true", "false", "null"], (word "" s).isMarker = false := by decide
      exact Bool.eq_false_iff.mp (hall text (List.contains_iff_mem.mp hliteral)) hmarker
  | number =>
    simp only [Scan.isLexeme, Scan.isNumberText, Bool.and_eq_true] at hl
    exact absurd hl.1 (by decide)
  | string =>
    simp only [Scan.isLexeme, Scan.isQuotedText, Bool.and_eq_true] at hl
    exact absurd hl.1 (by decide)
  | character =>
    simp only [Scan.isLexeme, Scan.isQuotedText, Bool.and_eq_true] at hl
    exact absurd hl.1 (by decide)
  | symbol =>
    have hall : ∀ s ∈ ["(", "-"], (word "" s).isMarker = false := by decide
    exact Bool.eq_false_iff.mp (hall text (List.contains_iff_mem.mp h)) hmarker
  | eof => cases hl

/-- **An expression that looks like a variable is written like one**, when no modifier stands at its
front. -/
theorem Expr.exists_variable {e : Expr} (hwf : e.WellFormed false) (hbare : HeadBare e.tokens)
    (hlexical : ∀ t ∈ e.tokens, t.Lexical) (hunmodified : startsModifier e.tokens = false)
    {semi : Trivia} (hlooks : LooksVariable (e.tokens ++ [symbol semi ";"])) (lead : Trivia) :
    ∃ v : Variable, v.WellFormed ∧ v.lead = lead ∧ v.bareTokens = e.tokens ++ [symbol semi ";"] := by
  obtain ⟨first, rest, hhead, hstart⟩ := Parser.exprTokens_head e false hwf
  have hdeclares : DeclaresAhead (e.tokens ++ [symbol semi ";"]) := by
    rcases hlooks with hfinal | ⟨t, ht, hmarker⟩ | hdeclares
    · rw [headIs_append _ _ e.tokens_ne_nil, Parser.headIs_exprTokens hwf (by decide)] at hfinal
      cases hfinal
    · rw [hhead] at ht hlexical
      cases ht
      rw [isMarker_of_isExprStart hstart (hlexical _ List.mem_cons_self)] at hmarker
      cases hmarker
    · exact hdeclares
  obtain ⟨type, n, s, more, hrow, htype, hn, hsign, hany⟩ := hdeclares
  have hmem : n ∈ e.tokens := by
    have hn' : n ∈ e.tokens ++ [symbol semi ";"] := by
      rw [hrow]
      simp
    rcases List.mem_append.mp hn' with hmem | hmem
    · exact hmem
    · rw [List.mem_singleton.mp hmem] at hn
      cases hn
  obtain ⟨nameLead, name, rfl⟩ : ∃ lead text, n = word lead text := by
    refine ⟨n.lead, n.text, ?_⟩
    rw [← Token.unplaced_of_word (Parser.kind_of_isName hn)]
    exact (List.map_inj_left.mp ((Expr.unplaced_tokens e).trans (List.map_id _).symm) n hmem).symm
  have hl := hlexical _ hmem
  have hname : isNameText name = true := (Parser.isNameText_of_isName hn hl :)
  -- The type and the name contain no sign, so the value of an assignment starts behind them.
  have hfront : ∀ t ∈ type.tokens ++ [word nameLead name], t.is "(" = false ∧ t.isSign = false := by
    refine List.forall_mem_append.mpr ⟨fun t ht => ?_, List.forall_mem_singleton.mpr ⟨?_, ?_⟩⟩
    · have hpart := type.isTypePart_tokens htype t ht
      exact ⟨Token.is_of_isTypePart hpart (by decide) (by decide), isSign_of_isTypePart hpart⟩
    · exact Token.is_of_isName hn (by decide) hl
    · exact isSign_of_kind hl (fun h => by cases h)
  have hsplit : e.tokens ++ [symbol semi ";"] = (type.tokens ++ [word nameLead name]) ++ s :: more := by
    rw [hrow]
    simp
  obtain ⟨value, hvalue, htokens⟩ :=
    e.cut_at_sign hwf hfront (by simpa [Token.isSign] using hsign) hsplit
  have hne := Parser.typeTokens_ne_nil htype
  rw [htokens] at hbare hunmodified
  refine ⟨⟨0, lead, [], type, ⟨0, nameLead, name⟩, value, semi⟩,
    ⟨⟨?_, List.forall_mem_nil _, htype, ?_, hname, hany⟩, hvalue⟩, rfl, ?_⟩
  · rw [List.append_assoc, Parser.headBare_append _ hne] at hbare
    exact hbare
  · have htwo : 2 ≤ (type.tokens ++ [word nameLead name]).length := by
      rw [List.length_append, List.length_singleton]
      exact Nat.succ_le_succ (List.length_pos_iff.mpr hne)
    rw [Parser.startsModifier_append _ htwo] at hunmodified
    exact hunmodified
  · rw [Variable.bareTokens_eq, htokens]
    simp [Variable.bodyTokens, modifierTokens, Ident.tokens]

end Migration
