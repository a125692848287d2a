import Migration.Proofs.Grammar.LookAhead

/-!
# Statements, declarations and modules are read without loss

The productions from statements up to whole modules. A statement, a parameter, a member or a type
takes the trivia in front of it first; what it reads afterwards starts with a bare token.

`ofTokens_sound` collects what is needed about a module: it is written with the tokens it was read
from, and it is well formed.
-/

namespace Migration.Parser

open Cursor (Sane Reads)
open Token (symbol)

/-! ### Modifiers, a type and a name -/

theorem startsModifier_append {as : List Token} (bs : List Token) (h : 2 ≤ as.length) :
    startsModifier (as ++ bs) = startsModifier as := by
  match as, h with
  | t :: u :: rest, _ => rfl

theorem headBare_append {as : List Token} (bs : List Token) (h : as ≠ []) :
    HeadBare (as ++ bs) ↔ HeadBare as := by
  cases as with
  | nil => exact absurd rfl h
  | cons t ts => rfl

theorem declares_reads {c c1 c2 c3 : Cursor} {ms : List Ident} {type : TypeName} {name : Ident}
    (hc : c.Sane) (h1 : modifiers c = .ok (ms, c1)) (h2 : typeName c1 = .ok (type, c2))
    (h3 : ident c2 = .ok (name, c3)) :
    c.Reads (modifierTokens ms ++ (type.tokens ++ name.tokens)) c3 ∧ type.tokens ≠ []
      ∧ (HeadBare (modifierTokens ms ++ type.tokens) → Declares ms type name) := by
  obtain ⟨hr1, hms, hstop⟩ := modifiers_sound _ _ _ hc h1
  have hc1 := hr1.sane hc
  obtain ⟨hr2, htype⟩ := typeName_sound _ _ _ hc1 h2
  have hc2 := hr2.sane hc1
  obtain ⟨hr3, hname, hpeek, htext, _⟩ := ident_reads hc2 h3
  have hk := kind_of_isName hpeek
  have hdot : c2.isAt "." = false := by
    rw [Cursor.isAt, Token.is, hk, ← htext]
    have hne : name.name ≠ "." := by
      intro h
      rw [h] at hname
      exact absurd hname (by decide)
    simp [hne]
  have hwf := htype.1 hdot
  have hne := typeTokens_ne_nil hwf
  refine ⟨hr1.trans (hr2.trans hr3), hne, fun hbare => ⟨hbare, hms, hwf, ?_, hname, fun hany => ?_⟩⟩
  · have hpos := List.length_pos_iff.mpr hne
    obtain ⟨_, hrow⟩ := (hr2.trans hr3).at hc1.at
    rw [isAtModifier_of_at hc1.at, hrow, startsModifier_append _ (by simp [Ident.tokens]; omega)]
      at hstop
    exact hstop
  · have hsup := (htype.2 hany).2
    rw [Cursor.isAt, Token.is, hk, ← htext] at hsup
    simpa using hsup

/-! ### Statements -/

theorem initializer_sound : Sound initializer (optionTokens Initializer.tokens) fun o _ =>
    ∀ i ∈ o, i.value.WellFormed false := by
  refine Sound.whenAt fun c i c' hc hat h => ?_
  simp only [bind_ok, pure_ok] at h
  obtain ⟨t, c1, h1, e, c2, h2, rfl, rfl⟩ := h
  have hr1 := bump_symbol hc (by decide) hat h1
  obtain ⟨hr2, hok⟩ := expr_sound _ _ _ (hr1.sane hc) h2
  exact ⟨hr1.trans hr2, hok.1⟩

theorem variableOf_reads {id : NodeId} {lead : Trivia} {ms : List Ident} {type : TypeName}
    {name : Ident} {c c' : Cursor} {v : Variable} (hc : c.Sane)
    (h : variableOf id lead ms type name c = .ok (v, c')) :
    ∃ value semi, v = ⟨id, lead, ms, type, name, value, semi⟩
      ∧ (∀ i ∈ value, i.value.WellFormed false)
      ∧ c.Reads (optionTokens Initializer.tokens value ++ [symbol semi ";"]) c' := by
  simp only [variableOf, bind_ok, pure_ok] at h
  obtain ⟨value, c1, h1, semi, c2, h2, rfl, rfl⟩ := h
  obtain ⟨hr1, hok⟩ := initializer_sound _ _ _ hc h1
  obtain ⟨hr2, _⟩ := expect_symbol (hr1.sane hc) (by decide) h2
  exact ⟨value, semi, rfl, hok, hr1.trans hr2⟩

/-- A variable that is read behind its trivia. -/
theorem variable_reads {id : NodeId} {lead : Trivia} {ms : List Ident} {type : TypeName}
    {name : Ident} {c c1 c2 c' : Cursor} {v : Variable} (hlead : takeLead c = .ok (lead, c1))
    (hdecl : c1.Reads (modifierTokens ms ++ (type.tokens ++ name.tokens)) c2) (hc2 : c2.Sane)
    (hne : type.tokens ≠ [])
    (hok : HeadBare (modifierTokens ms ++ type.tokens) → Declares ms type name)
    (h : variableOf id lead ms type name c2 = .ok (v, c')) :
    c.Reads v.tokens c' ∧ v.WellFormed ∧ c1.Reads v.bareTokens c' := by
  obtain ⟨value, semi, rfl, hvalue, hr⟩ := variableOf_reads hc2 h
  have hall := hdecl.trans hr
  simp only [List.append_assoc] at hall
  obtain ⟨hread, hbare⟩ := takeLead_reads hlead hall (by simp)
  refine ⟨hread, ⟨hok ?_, hvalue⟩, ?_⟩
  · rw [← List.append_assoc, headBare_append _ (by simp [hne])] at hbare
    exact hbare
  · rw [Variable.bareTokens, Variable.tokens, prependLead_empty]
    exact hall

theorem returnOf_reads {id : NodeId} {lead : Trivia} {c c1 c' : Cursor} {s : Return}
    (hlead : takeLead c = .ok (lead, c1)) (hc1 : c1.Sane) (hat : c1.isAt "return" = true)
    (h : returnOf id lead c1 = .ok (s, c')) :
    c.Reads s.tokens c' ∧ ∀ e ∈ s.value, e.WellFormed false := by
  simp only [returnOf, get_bind, ite_run, ite_ok, bind_ok, pure_ok, map_ok] at h
  obtain ⟨t, c2, h2, h⟩ := h
  have hr2 := bump_word hc1 (by decide) hat h2
  have hc2 := hr2.sane hc1
  have hvalue : ∃ value c3 semi, s = ⟨id, lead, value, semi⟩ ∧ c2.Reads (optionTokens Expr.tokens value) c3
      ∧ (∀ e ∈ value, e.WellFormed false) ∧ expect ";" c3 = .ok (semi, c') := by
    rcases h with ⟨_, _, _, ⟨rfl, rfl⟩, semi, _, h3, rfl, rfl⟩
      | ⟨_, _, c3, ⟨e, h3, rfl⟩, semi, _, h4, rfl, rfl⟩
    · exact ⟨none, _, semi, rfl, Reads.refl _, fun e he => (by cases he), h3⟩
    · obtain ⟨hr3, hok⟩ := expr_sound _ _ _ hc2 h3
      exact ⟨some e, c3, semi, rfl, hr3, fun e he => (by cases he; exact hok.1), h4⟩
  obtain ⟨value, c3, semi, rfl, hr3, hok, h4⟩ := hvalue
  obtain ⟨hr4, _⟩ := expect_symbol (hr3.sane hc2) (by decide) h4
  obtain ⟨hread, hbare⟩ := takeLead_reads hlead (hr2.trans (hr3.trans hr4)) (by simp)
  have ht : t.lead = "" := hbare (.word t.lead "return") rfl
  refine ⟨?_, hok⟩
  simp only [List.singleton_append, prependLead, Token.word_lead, ht, String.append_empty] at hread
  exact hread

theorem exprStmtOf_reads {id : NodeId} {lead : Trivia} {c c1 c' : Cursor} {s : ExprStmt}
    (hlead : takeLead c = .ok (lead, c1)) (hc1 : c1.Sane) (hat : c1.isAtLocalVar = false)
    (h : exprStmtOf id lead c1 = .ok (s, c')) :
    c.Reads s.tokens c' ∧ Stmt.WellFormed (.expr s) := by
  simp only [exprStmtOf, bind_ok, pure_ok] at h
  obtain ⟨e, c2, h2, semi, c3, h3, rfl, rfl⟩ := h
  obtain ⟨hr2, hok⟩ := expr_sound _ _ _ hc1 h2
  obtain ⟨hr3, _⟩ := expect_symbol (hr2.sane hc1) (by decide) h3
  obtain ⟨hread, hbare⟩ := takeLead_reads hlead (hr2.trans hr3) (by simp)
  rw [headBare_append _ (Expr.tokens_ne_nil e)] at hbare
  refine ⟨hread, hbare, hok.1, fun hlooks => ?_⟩
  obtain ⟨_, hrow⟩ := (hr2.trans hr3).at hc1.at
  rw [List.append_assoc] at hrow
  have hvar := (isAtLocalVar_iff hc1.at).mpr
    (by rw [hrow, List.singleton_append]; exact (looksVariable_append semi).mpr hlooks)
  rw [hat] at hvar
  cases hvar

theorem localVarOf_reads {id : NodeId} {lead : Trivia} {c c1 c' : Cursor} {v : Variable}
    (hlead : takeLead c = .ok (lead, c1)) (hc1 : c1.Sane) (hat : c1.isAtLocalVar = true)
    (h : localVarOf id lead c1 = .ok (v, c')) :
    c.Reads v.tokens c' ∧ Stmt.WellFormed (.localVar v) := by
  simp only [localVarOf, bind_ok] at h
  obtain ⟨ms, c2, h2, type, c3, h3, name, c4, h4, h5⟩ := h
  obtain ⟨hr, hne, hok⟩ := declares_reads hc1 h2 h3 h4
  obtain ⟨hread, hwf, hbare⟩ := variable_reads hlead hr (hr.sane hc1) hne hok h5
  refine ⟨hread, hwf, ?_⟩
  obtain ⟨_, hrow⟩ := hbare.at hc1.at
  have hlooks := (isAtLocalVar_iff hc1.at).mp hat
  rw [Variable.bareTokens_eq] at hrow ⊢
  rw [hrow, List.append_assoc, List.singleton_append, looksVariable_append] at hlooks
  exact hlooks

theorem statementOf_sound {self : Parser Block}
    (hself : Sound self Block.tokens fun b _ => b.WellFormed) :
    Sound (statementOf self) Stmt.tokens fun s _ => s.WellFormed := by
  intro c s c' hc h
  simp only [statementOf, get_bind, ite_run, ite_ok, bind_ok, pure_ok, unsupported_ok, and_false,
    false_or] at h
  rcases h with ⟨_, b, c1, h1, rfl, rfl⟩ | ⟨_, _, id, c1, h1, lead, c2, h2, h⟩
  · exact hself _ _ _ hc h1
  have hr1 := fresh_reads h1
  have hc1 := hr1.sane hc
  have hc2 := takeLead_sane hc1 h2
  rcases h with ⟨hret, s, c3, h3, rfl, rfl⟩
    | ⟨_, ⟨hvar, v, c3, h3, rfl, rfl⟩ | ⟨hvar, s, c3, h3, rfl, rfl⟩⟩
  · obtain ⟨hr, hok⟩ := returnOf_reads h2 hc2 hret h3
    exact ⟨hr1.trans hr, hok⟩
  · obtain ⟨hr, hok⟩ := localVarOf_reads h2 hc2 hvar h3
    exact ⟨hr1.trans hr, hok⟩
  · obtain ⟨hr, hok⟩ := exprStmtOf_reads h2 hc2 (by simpa using hvar) h3
    exact ⟨hr1.trans hr, hok⟩

/-- Items up to a closing brace. -/
theorem untilBrace_sound {α : Type} {item : Parser α} {tokens : α → List Token} {P : α → Prop}
    (h : Sound item tokens fun x _ => P x) :
    Sound (untilBrace item) (List.flatMap tokens) fun xs _ => ∀ x ∈ xs, P x := by
  have hone : ∀ c x c', c.Sane → (!c.isAt "\x7d") = true →
      (do if (← get).atEnd then unexpected (.token "\x7d") else item : Parser α) c = .ok (x, c') →
      c.Reads (tokens x) c' ∧ P x := by
    intro c x c' hc _ hrun
    simp only [get_bind, ite_run, ite_ok, unexpected_ok, and_false, false_or] at hrun
    exact h _ _ _ hc hrun.2
  exact (Sound.many hone).mono fun xs c' hall => hall.1

theorem blockOf_sound {self : Parser Block}
    (hself : Sound self Block.tokens fun b _ => b.WellFormed) :
    Sound (blockOf self) Block.tokens fun b _ => b.WellFormed := by
  intro c b c' hc h
  simp only [blockOf, bind_ok, pure_ok] at h
  obtain ⟨id, c1, h1, lead, c2, h2, ss, c3, h3, close, c4, h4, rfl, rfl⟩ := h
  have hr1 := fresh_reads h1
  have hc1 := hr1.sane hc
  obtain ⟨hr2, _⟩ := expect_symbol hc1 (by decide) h2
  have hc2 := hr2.sane hc1
  obtain ⟨hr3, hall⟩ := untilBrace_sound (statementOf_sound hself) _ _ _ hc2 h3
  obtain ⟨hr4, _⟩ := expect_symbol (hr3.sane hc2) (by decide) h4
  refine ⟨?_, (Stmt.wellFormedAll_iff ss).mpr hall⟩
  rw [Block.tokens, Stmt.tokensAll_eq]
  exact hr1.trans (hr2.trans (hr3.trans hr4))

theorem block_sound : Sound block Block.tokens fun b _ => b.WellFormed :=
  Sound.fix fun _ h => blockOf_sound h

/-! ### Members -/

theorem param_sound : Sound param Param.tokens fun p _ => p.WellFormed := by
  intro c p c' hc h
  simp only [param, bind_ok, pure_ok] at h
  obtain ⟨id, c1, h1, lead, c2, h2, ms, c3, h3, type, c4, h4, name, c5, h5, rfl, rfl⟩ := h
  have hr1 := fresh_reads h1
  have hc2 := takeLead_sane (hr1.sane hc) h2
  obtain ⟨hr, hne, hok⟩ := declares_reads hc2 h3 h4 h5
  obtain ⟨hread, hbare⟩ := takeLead_reads h2 hr (by simp [hne])
  rw [← List.append_assoc, headBare_append _ (by simp [hne])] at hbare
  exact ⟨hr1.trans hread, hok hbare⟩

theorem methodBody_sound : Sound methodBody MethodBody.tokens fun b _ => b.WellFormed := by
  intro c b c' hc h
  simp only [methodBody, get_bind, ite_run, ite_ok, bind_ok, pure_ok, unsupported_ok, unexpected_ok,
    and_false, or_false] at h
  rcases h with ⟨_, b, c1, h1, rfl, rfl⟩ | ⟨_, hat, t, c1, h1, rfl, rfl⟩
  · exact block_sound _ _ _ hc h1
  · exact ⟨bump_symbol hc (by decide) hat h1, trivial⟩

theorem methodOf_reads {id : NodeId} {lead : Trivia} {ms : List Ident} {type : Option TypeName}
    {name : Ident} {c c' : Cursor} {m : Method} (hc : c.Sane)
    (h : methodOf id lead ms type name c = .ok (m, c')) :
    ∃ params body, m = ⟨id, lead, ms, type, name, params, body⟩
      ∧ ItemsOk Param.WellFormed params.items ∧ body.WellFormed
      ∧ c.Reads (params.tokens "(" ")" Param.tokens ++ body.tokens) c' := by
  simp only [methodOf, bind_ok, pure_ok] at h
  obtain ⟨params, c1, h1, body, c2, h2, rfl, rfl⟩ := h
  obtain ⟨hr1, hparams⟩ := Sound.listing (Q := Param.WellFormed) (by decide) (by decide) param_sound
    (fun _ _ _ hok => hok) (fun _ _ _ hok => hok) _ _ _ hc h1
  obtain ⟨hr2, hbody⟩ := methodBody_sound _ _ _ (hr1.sane hc) h2
  exact ⟨params, body, rfl, hparams, hbody, hr1.trans hr2⟩

/-- A constructor behind its trivia and its modifiers. -/
theorem constructor_reads {id : NodeId} {lead : Trivia} {ms : List Ident} {name : Ident}
    {c c1 c2 c3 c' : Cursor} {m : Method} (hlead : takeLead c = .ok (lead, c1)) (hc1 : c1.Sane)
    (hms : modifiers c1 = .ok (ms, c2)) (hname : ident c2 = .ok (name, c3))
    (h : methodOf id lead ms none name c3 = .ok (m, c')) :
    c.Reads m.tokens c' ∧ m.WellFormed := by
  obtain ⟨hr1, hmods, hstop⟩ := modifiers_sound _ _ _ hc1 hms
  have hc2 := hr1.sane hc1
  obtain ⟨hr2, hok, _⟩ := ident_reads hc2 hname
  obtain ⟨params, body, rfl, hparams, hbody, hr3⟩ := methodOf_reads (hr2.sane hc2) h
  obtain ⟨hread, hbare⟩ := takeLead_reads hlead (hr1.trans (hr2.trans hr3)) (by simp [Ident.tokens])
  rw [← List.append_assoc, headBare_append _ (by simp [Ident.tokens])] at hbare
  refine ⟨hread, fun t ht => (by cases ht), fun _ => ⟨hbare, hmods, ?_, hok⟩, hparams, hbody⟩
  obtain ⟨_, hrow⟩ := (hr2.trans hr3).at hc2.at
  rw [isAtModifier_of_at hc2.at, hrow] at hstop
  exact hstop

theorem fieldOrMethodOf_reads {id : NodeId} {lead : Trivia} {ms : List Ident}
    {c c1 c2 c' : Cursor} {m : Member} (hlead : takeLead c = .ok (lead, c1)) (hc1 : c1.Sane)
    (hms : modifiers c1 = .ok (ms, c2)) (h : fieldOrMethodOf id lead ms c2 = .ok (m, c')) :
    c.Reads m.tokens c' ∧ m.WellFormed := by
  simp only [fieldOrMethodOf, get_bind, ite_run, ite_ok, bind_ok, pure_ok, map_ok] at h
  rcases h with ⟨_, _, _, ⟨rfl, rfl⟩, name, c3, h3, h⟩
    | ⟨_, _, c3, ⟨type, h3, rfl⟩, name, c4, h4, h⟩
  · rcases h with ⟨_, m, c4, h4, rfl, rfl⟩ | ⟨_, h⟩
    · exact constructor_reads hlead hc1 hms h3 h4
    · exact (unexpected_ok.mp h).elim
  · obtain ⟨hr, hne, hok⟩ := declares_reads hc1 hms h3 h4
    have hc4 := hr.sane hc1
    rcases h with ⟨_, m, c5, h5, rfl, rfl⟩ | ⟨_, h⟩
    · obtain ⟨params, body, rfl, hparams, hbody, hr5⟩ := methodOf_reads hc4 h5
      have hall := hr.trans hr5
      simp only [List.append_assoc] at hall
      obtain ⟨hread, hbare⟩ := takeLead_reads hlead hall (by simp [Ident.tokens])
      rw [← List.append_assoc, headBare_append _ (by simp [hne])] at hbare
      refine ⟨hread, fun t ht => ?_, fun hnone => (by cases hnone), hparams, hbody⟩
      cases ht
      exact hok hbare
    · simp only [bind_ok, pure_ok] at h
      obtain ⟨v, c5, h5, rfl, rfl⟩ := h
      obtain ⟨hread, hwf, _⟩ := variable_reads hlead hr hc4 hne hok h5
      exact ⟨hread, hwf⟩

/-! ### Types -/

theorem typeKind_sound : Sound typeKind (fun x => [.word x.1 x.2.keyword]) fun _ _ => True := by
  intro c x c' hc h
  simp only [typeKind, get_bind, ite_run, ite_ok, bind_ok, pure_ok, unsupported_ok, unexpected_ok,
    and_false, or_false] at h
  rcases h with ⟨hat, t, c1, h1, rfl, rfl⟩ | ⟨_, hat, t, c1, h1, rfl, rfl⟩
  · have hkey : Token.isKeywordText "class" = true := by decide
    exact ⟨bump_word hc hkey hat h1, trivial⟩
  · have hkey : Token.isKeywordText "interface" = true := by decide
    exact ⟨bump_word hc hkey hat h1, trivial⟩

theorem isAt_body {c c' : Cursor} {b : TypeBody} (h : c.Reads b.tokens c') :
    c.isAt "\x7b" = true := by
  obtain ⟨id, lead, members, close⟩ := b
  rw [TypeBody.tokens] at h
  rw [h.isAt_head, Token.symbol_is_self]

/-- A clause that may be missing, in front of something that is no dot. -/
theorem whenAt_typeClause_reads {keyword : String} (hkey : Token.isKeywordText keyword = true)
    {c c' : Cursor} {o : Option TypeClause} (hc : c.Sane)
    (h : whenAt keyword typeClause c = .ok (o, c')) :
    c.Reads (optionTokens (TypeClause.tokens keyword) o) c'
      ∧ (c'.isAt "." = false → ∀ x ∈ o, x.WellFormed) ∧ (c = c' ∨ c.isAt keyword = true) := by
  simp only [whenAt, get_bind, ite_run, ite_ok, bind_ok, pure_ok] at h
  rcases h with ⟨hat, x, c1, h1, rfl, rfl⟩ | ⟨_, rfl, rfl⟩
  · obtain ⟨hr, hok⟩ := typeClause_reads hkey hc hat h1
    exact ⟨hr, fun hdot y hy => (by cases hy; exact hok hdot), .inr hat⟩
  · exact ⟨Reads.refl _, fun _ y hy => (by cases hy), .inl rfl⟩

theorem typeDeclOf_reads {body : Parser TypeBody}
    (hbody : Sound body TypeBody.tokens fun b _ => b.WellFormed) {id : NodeId} {lead : Trivia}
    {ms : List Ident} {c c1 c2 c' : Cursor} {d : TypeDecl} (hlead : takeLead c = .ok (lead, c1))
    (hc1 : c1.Sane) (hms : modifiers c1 = .ok (ms, c2))
    (h : typeDeclOf body id lead ms c2 = .ok (d, c')) : c.Reads d.tokens c' ∧ d.WellFormed := by
  simp only [typeDeclOf, bind_ok, pure_ok] at h
  obtain ⟨kind, c3, h3, name, c4, h4, params, c5, h5, ext, c6, h6, imp, c7, h7, b, c8, h8, rfl,
    rfl⟩ := h
  obtain ⟨hr2, hmods, _⟩ := modifiers_sound _ _ _ hc1 hms
  have hc2 := hr2.sane hc1
  obtain ⟨hr3, _⟩ := typeKind_sound _ _ _ hc2 h3
  have hc3 := hr3.sane hc2
  obtain ⟨hr4, hname, _⟩ := ident_reads hc3 h4
  have hc4 := hr4.sane hc3
  obtain ⟨hr5, hparams⟩ := Sound.whenAt (fun c x c' hc _ hx => typeArguments_sound c x c' hc hx)
    _ _ _ hc4 h5
  have hc5 := hr5.sane hc4
  obtain ⟨hr6, hext, _⟩ := whenAt_typeClause_reads (by decide) hc5 h6
  have hc6 := hr6.sane hc5
  obtain ⟨hr7, himp, hnext⟩ := whenAt_typeClause_reads (by decide) hc6 h7
  have hc7 := hr7.sane hc6
  obtain ⟨hr8, hb⟩ := hbody _ _ _ hc7 h8
  have hdot7 : c7.isAt "." = false := Cursor.isAt_unique (isAt_body hr8) (by decide)
  have hdot6 : c6.isAt "." = false := by
    rcases hnext with rfl | hat
    · exact hdot7
    · exact Cursor.isAt_unique hat (by decide)
  have hheader := hr3.trans (hr4.trans (hr5.trans (hr6.trans hr7)))
  have hall := hr2.trans (hheader.trans hr8)
  obtain ⟨hread, hbare⟩ := takeLead_reads hlead hall (by simp)
  refine ⟨hread, ⟨?_, hmods, hname, hparams, hext hdot6, himp hdot7⟩, hb⟩
  cases ms with
  | nil =>
    intro t ht
    cases ht
    exact hbare (.word kind.1 kind.2.keyword) rfl
  | cons m ms => exact hbare

theorem memberOf_sound {self : Parser TypeBody}
    (hself : Sound self TypeBody.tokens fun b _ => b.WellFormed) :
    Sound (memberOf self) Member.tokens fun m _ => m.WellFormed := by
  intro c m c' hc h
  simp only [memberOf, get_bind, ite_run, ite_ok, bind_ok, pure_ok, unsupported_ok, and_false,
    false_or] at h
  obtain ⟨id, c1, h1, lead, c2, h2, ms, c3, h3, h⟩ := h
  have hr1 := fresh_reads h1
  have hc2 := takeLead_sane (hr1.sane hc) h2
  rcases h with ⟨_, d, c4, h4, rfl, rfl⟩ | ⟨_, _, _, h4⟩
  · obtain ⟨hr, hok⟩ := typeDeclOf_reads hself h2 hc2 h3 h4
    exact ⟨hr1.trans hr, hok⟩
  · obtain ⟨hr, hok⟩ := fieldOrMethodOf_reads h2 hc2 h3 h4
    exact ⟨hr1.trans hr, hok⟩

theorem typeBodyOf_sound {self : Parser TypeBody}
    (hself : Sound self TypeBody.tokens fun b _ => b.WellFormed) :
    Sound (typeBodyOf self) TypeBody.tokens fun b _ => b.WellFormed := by
  intro c b c' hc h
  simp only [typeBodyOf, bind_ok, pure_ok] at h
  obtain ⟨id, c1, h1, lead, c2, h2, ms, c3, h3, close, c4, h4, rfl, rfl⟩ := h
  have hr1 := fresh_reads h1
  have hc1 := hr1.sane hc
  obtain ⟨hr2, _⟩ := expect_symbol hc1 (by decide) h2
  have hc2 := hr2.sane hc1
  obtain ⟨hr3, hall⟩ := untilBrace_sound (memberOf_sound hself) _ _ _ hc2 h3
  obtain ⟨hr4, _⟩ := expect_symbol (hr3.sane hc2) (by decide) h4
  refine ⟨?_, (Member.wellFormedAll_iff ms).mpr hall⟩
  rw [TypeBody.tokens, Member.tokensAll_eq]
  exact hr1.trans (hr2.trans (hr3.trans hr4))

theorem typeBody_sound : Sound typeBody TypeBody.tokens fun b _ => b.WellFormed :=
  Sound.fix fun _ h => typeBodyOf_sound h

theorem typeDecl_sound : Sound typeDecl TypeDecl.tokens fun d _ => d.WellFormed := by
  intro c d c' hc h
  simp only [typeDecl, bind_ok] at h
  obtain ⟨id, c1, h1, lead, c2, h2, ms, c3, h3, h4⟩ := h
  have hr1 := fresh_reads h1
  have hc2 := takeLead_sane (hr1.sane hc) h2
  obtain ⟨hr, hok⟩ := typeDeclOf_reads typeBody_sound h2 hc2 h3 h4
  exact ⟨hr1.trans hr, hok⟩

/-! ### Modules -/

theorem package_reads {c c' : Cursor} {p : Package} (hc : c.Sane) (hat : c.isAt "package" = true)
    (h : package c = .ok (p, c')) :
    c.Reads p.tokens c' ∧ isDottedText false p.name = true := by
  simp only [package, bind_ok, pure_ok] at h
  obtain ⟨id, c1, h1, t, c2, h2, ⟨lead, name, wildcard⟩, c3, h3, semi, c4, h4, rfl, rfl⟩ := h
  have hr1 := fresh_reads h1
  have hc1 := hr1.sane hc
  have hr2 := bump_word hc1 (by decide) (hr1.isAt_nil hat) h2
  have hc2 := hr2.sane hc1
  obtain ⟨hr3, hw, hname⟩ := dotted_sound false _ _ _ hc2 h3
  obtain ⟨hr4, hsemi⟩ := expect_symbol (hr3.sane hc2) (by decide) h4
  obtain rfl : wildcard = false := by
    rw [Bool.eq_false_iff]
    intro ht
    exact absurd (hw ht) (by decide)
  rw [Cursor.isAt_unique hsemi (by decide)] at hname
  refine ⟨?_, hname⟩
  have := hr1.trans (hr2.trans (hr3.trans hr4))
  simpa [wildcardTokens, Package.tokens] using this

theorem importDecl_reads {c c' : Cursor} {i : Import} (hc : c.Sane) (hat : c.isAt "import" = true)
    (h : importDecl c = .ok (i, c')) : c.Reads i.tokens c' ∧ i.WellFormed := by
  simp only [importDecl, bind_ok, pure_ok] at h
  obtain ⟨id, c1, h1, t, c2, h2, static, c3, h3, ⟨lead, name, wildcard⟩, c4, h4, semi, c5, h5, rfl,
    rfl⟩ := h
  have hr1 := fresh_reads h1
  have hc1 := hr1.sane hc
  have hr2 := bump_word hc1 (by decide) (hr1.isAt_nil hat) h2
  have hc2 := hr2.sane hc1
  have hstatic : ∀ c x c', c.Sane → c.isAt "static" = true → (Token.lead <$> bump) c = .ok (x, c') →
      c.Reads [.word x "static"] c' ∧ True := by
    intro c x c' hc hat hx
    obtain ⟨t, ht, rfl⟩ := map_ok.mp hx
    exact ⟨bump_word hc (by decide) hat ht, trivial⟩
  obtain ⟨hr3, _⟩ := Sound.whenAt (P := fun _ _ => True) hstatic _ _ _ hc2 h3
  have hc3 := hr3.sane hc2
  obtain ⟨hr4, _, hname⟩ := dotted_sound true _ _ _ hc3 h4
  obtain ⟨hr5, hsemi⟩ := expect_symbol (hr4.sane hc3) (by decide) h5
  rw [Cursor.isAt_unique hsemi (by decide), Bool.or_false] at hname
  refine ⟨?_, hname⟩
  have := hr1.trans (hr2.trans (hr3.trans (hr4.trans hr5)))
  simpa [Import.tokens, Import.tailTokens] using this

/-- **A module is written with the tokens it was read from**, and is well formed. -/
theorem module_reads {c c' : Cursor} {m : Module} (hc : c.Sane) (h : module c = .ok (m, c')) :
    c.rest.map Token.unplaced = m.tokens ∧ m.eof = c.eof.lead ∧ m.WellFormed := by
  simp only [module, get_bind, bind_ok, pure_ok] at h
  obtain ⟨id, c1, h1, pkg, c2, h2, imports, c3, h3, types, c4, h4, eof, c5, h5, rfl, rfl⟩ := h
  have hr1 := fresh_reads h1
  have hc1 := hr1.sane hc
  obtain ⟨hr2, hpkg⟩ := Sound.whenAt (fun c x c' hc hat hx => package_reads hc hat hx) _ _ _ hc1 h2
  have hc2 := hr2.sane hc1
  obtain ⟨hr3, himports, _⟩ :=
    Sound.many (fun c x c' hc hat hx => importDecl_reads hc hat hx) _ _ _ hc2 h3
  have hc3 := hr3.sane hc2
  obtain ⟨hr4, htypes, hend⟩ :=
    Sound.many (fun c x c' hc _ hx => typeDecl_sound c x c' hc hx) _ _ _ hc3 h4
  have hall := hr1.trans (hr2.trans (hr3.trans hr4))
  have hrest : c4.rest = [] := by simpa [Cursor.atEnd] using hend
  cases h5
  obtain ⟨⟨read, hread, htokens⟩, heof⟩ := hall
  rw [hrest, List.append_nil] at hread
  refine ⟨?_, ?_, hpkg, himports, htypes⟩
  · rw [hread, htokens]
    rfl
  · rw [Cursor.peek, hrest, List.headD_nil, heof]

end Migration.Parser

namespace Migration

theorem ofTokens_sound {ts : Tokens} {m : Module} (hlex : ∀ t ∈ ts.words, t.Lexical)
    (hkind : ts.eof.kind = .eof) (htext : ts.eof.text = "") (h : Module.ofTokens ts = .ok m) :
    ts.words.map Token.unplaced = m.tokens ∧ m.eof = ts.eof.lead ∧ m.WellFormed := by
  rw [Module.ofTokens] at h
  cases hrun : Parser.module (Cursor.ofTokens ts) with
  | error e =>
    rw [hrun] at h
    cases h
  | ok x =>
    rw [hrun] at h
    cases h
    exact Parser.module_reads ⟨hkind, htext, hlex⟩ hrun

end Migration
