import Migration.Proofs.Grammar.Reading
import Migration.Proofs.Tree.Names

/-!
# Names, types and expressions are read without loss

Every production for names, types and expressions gives a tree that is written with the tokens that
were read, and that is well formed. Whether a name may end in a keyword depends on whether a dot
follows it, so that the properties speak of the cursor behind the tree.
-/

namespace Migration.Parser

open Cursor (Sane Reads)
open Token (symbol)

/-! ### Words and names -/

theorem peek_advance {c : Cursor} {t : Token} {rest : List Token} (h : c.rest = t :: rest) :
    ({ c with rest } : Cursor).peek = c.peekAt 1 := by
  rw [Cursor.peekAt, h, Cursor.peek]
  cases rest <;> rfl

theorem word_reads {c c' : Cursor} {i : Ident} (hc : c.Sane) (hk : c.peek.kind = .word)
    (h : Parser.word c = .ok (i, c')) :
    c.Reads i.tokens c' ∧ Scan.isWordText i.name.toList = true ∧ i.name = c.peek.text
      ∧ c'.peek = c.peekAt 1 := by
  simp only [Parser.word, bind_ok, pure_ok] at h
  obtain ⟨id, c1, h1, t, c2, h2, rfl, rfl⟩ := h
  cases h1
  obtain ⟨u, rest, hr, hu⟩ := Cursor.exists_of_peek_kind hc (by rw [hk]; decide)
  have hl := hc.lexical u (by rw [hr]; exact List.mem_cons_self)
  rw [bump_cons (c := { c with nextId := c.nextId + 1 }) hr] at h2
  obtain ⟨rfl, rfl⟩ := Prod.mk.inj (Except.ok.inj h2)
  rw [hu] at hk ⊢
  refine ⟨⟨⟨[u], hr, ?_⟩, rfl⟩, ?_, rfl, peek_advance hr⟩
  · rw [List.map_singleton, Ident.tokens, Token.unplaced_of_word hk]
  · rw [Token.Lexical, hk] at hl
    exact hl

theorem isNameText_of_isName {t : Token} (h : t.isName = true)
    (hl : Scan.isWordText t.text.toList = true) : isNameText t.text = true := by
  simp only [Token.isName, Bool.and_eq_true] at h
  simp only [isNameText, Token.isName, Bool.and_eq_true, Token.word_kind, Token.word_text, hl,
    beq_self_eq_true, true_and]
  exact ⟨h.1.2, h.2⟩

theorem kind_of_isName {t : Token} (h : t.isName = true) : t.kind = .word := by
  simp only [Token.isName, Bool.and_eq_true, beq_iff_eq] at h
  exact h.1.1

theorem ident_reads {c c' : Cursor} {i : Ident} (hc : c.Sane) (h : ident c = .ok (i, c')) :
    c.Reads i.tokens c' ∧ isNameText i.name = true ∧ c.peek.isName = true
      ∧ i.name = c.peek.text ∧ c'.peek = c.peekAt 1 := by
  simp only [ident, get_bind, ite_run, ite_ok, unexpected_ok, and_false, or_false] at h
  obtain ⟨hn, h⟩ := h
  obtain ⟨hr, hw, hname, hpeek⟩ := word_reads hc (kind_of_isName hn) h
  rw [hname] at hw ⊢
  exact ⟨hr, isNameText_of_isName hn hw, hn, rfl, hpeek⟩

theorem isMarker_of_reserved {s : String} (h : reservedWords.contains s = true) :
    (Token.word "" s).isMarker = false := by
  have hall : ∀ s ∈ reservedWords, (Token.word "" s).isMarker = false := by decide
  exact hall s (List.contains_iff_mem.mp h)

/-- The name after a dot may be a keyword exactly when another dot follows. -/
theorem memberName_reads {c c' : Cursor} {i : Ident} (hc : c.Sane)
    (h : memberName c = .ok (i, c')) :
    c.Reads i.tokens c' ∧ isSegmentText (c'.isAt ".") i.name = true := by
  simp only [memberName, get_bind, ite_run, ite_ok] at h
  rcases h with ⟨hres, h⟩ | ⟨_, h⟩
  · simp only [Bool.and_eq_true, Token.isReserved, beq_iff_eq] at hres
    obtain ⟨⟨hk, hcon⟩, hdot⟩ := hres
    obtain ⟨hr, hw, hname, hpeek⟩ := word_reads hc hk h
    refine ⟨hr, ?_⟩
    rw [Cursor.isAt, hpeek, hdot]
    rw [← hname] at hcon
    simp [isSegmentText, hw, isMarker_of_reserved hcon]
  · obtain ⟨hr, hn, _⟩ := ident_reads hc h
    exact ⟨hr, isSegmentText_of_isNameText _ hn⟩

/-- How a dotted name goes on is seen from the tokens ahead, none of which is read. -/
theorem nameStep_ok {wildcards : Bool} {c c' : Cursor} {s : NameStep}
    (h : nameStep wildcards c = .ok (s, c')) :
    c' = c ∧ (s = .stop ∨
      (c.isAt "." = true ∧ c.peek.lead = "" ∧ (c.peekAt 1).lead = "" ∧
        ((s = .wildcard ∧ wildcards = true ∧ (c.peekAt 1).is "*" = true) ∨
          (s = .segment (c.peekAt 1).text ∧ (c.peekAt 1).isSegment (c.peekAt 2) = true)))) := by
  simp only [nameStep, get_bind, ite_run, ite_ok, pure_ok, unsupported_ok, and_false,
    false_or] at h
  rcases h with ⟨_, rfl, rfl⟩ | ⟨hdot, hlead, h⟩
  · exact ⟨rfl, .inl rfl⟩
  simp only [Bool.not_eq_true', Bool.not_eq_false] at hdot
  simp only [Bool.or_eq_true, bne_iff_ne, ne_eq, not_or, Decidable.not_not] at hlead
  rcases h with ⟨hstar, rfl, rfl⟩ | ⟨_, ⟨hseg, rfl, rfl⟩ | ⟨_, rfl, rfl⟩⟩
  · simp only [Bool.and_eq_true] at hstar
    exact ⟨rfl, .inr ⟨hdot, hlead.1, hlead.2, .inl ⟨rfl, hstar.1, hstar.2⟩⟩⟩
  · exact ⟨rfl, .inr ⟨hdot, hlead.1, hlead.2, .inr ⟨rfl, hseg⟩⟩⟩
  · exact ⟨rfl, .inl rfl⟩

/-- A dot and the token behind it. -/
theorem bump_dot_reads {c c1 c2 : Cursor} {t u : Token} (hc : c.Sane) (hdot : c.isAt "." = true)
    (hlead : c.peek.lead = "") (hk : (c.peekAt 1).kind ≠ .eof) (h1 : bump c = .ok (t, c1))
    (h2 : bump c1 = .ok (u, c2)) :
    c.Reads [symbol "" ".", (c.peekAt 1).unplaced] c2 ∧ (c.peekAt 1).Lexical
      ∧ c2.peek = c.peekAt 2 := by
  obtain ⟨t', rest, hr, hi⟩ := Cursor.exists_of_isAt hc (by decide) hdot
  have ht := bump_symbol hc (by decide) hdot h1
  rw [bump_cons hr] at h1
  obtain ⟨rfl, rfl⟩ := Prod.mk.inj (Except.ok.inj h1)
  have hpeek : c.peek = t' := by rw [Cursor.peek, hr]; rfl
  rw [hpeek] at hlead
  rw [← peek_advance hr] at hk ⊢
  obtain ⟨hu, hl, hpu⟩ := bump_reads (ht.sane hc) hk h2
  obtain ⟨u', rest', hr', hu'⟩ := Cursor.exists_of_peek_kind (ht.sane hc) hk
  rw [bump_cons hr'] at h2
  obtain ⟨rfl, rfl⟩ := Prod.mk.inj (Except.ok.inj h2)
  rw [hlead] at ht
  rw [← hpu]
  refine ⟨ht.trans hu, hl, ?_⟩
  rw [peek_advance hr', Cursor.peekAt, Cursor.peekAt, hr]
  rfl

/-- What the rest of a dotted name satisfies: its segments, of which the first is empty, may stand
in front of what follows. -/
def NameRestOk (wildcards : Bool) (x : String × Bool) (c' : Cursor) : Prop :=
  (x.2 = true → wildcards = true) ∧
    ∃ ss, Name.segments x.1 = "" :: ss ∧ areSegmentTexts (x.2 || c'.isAt ".") ss = true

/-- The tokens of the rest of a dotted name. -/
def nameRestTokens (x : String × Bool) : List Token :=
  dotTokens (Name.segments x.1).tail ++ wildcardTokens x.2

theorem isSegmentText_of_isSegment {t next : Token} {dotted : Bool} (h : t.isSegment next = true)
    (hl : t.Lexical) (hd : next.is "." = true → dotted = true) :
    isSegmentText dotted t.text = true := by
  simp only [Token.isSegment, Bool.and_eq_true, beq_iff_eq, Bool.or_eq_true] at h
  obtain ⟨⟨hk, hm⟩, hr⟩ := h
  rw [Token.Lexical, hk] at hl
  simp only [isSegmentText, Bool.and_eq_true, Bool.or_eq_true]
  refine ⟨⟨hl, hm⟩, ?_⟩
  rcases hr with hr | hr
  · exact .inr hr
  · exact .inl (hd hr)

/-- One more segment in front of the rest of a dotted name. -/
theorem nameRestOk_segment {wildcards : Bool} {c c' : Cursor} {t : Token} {x : String × Bool}
    (ht : t.isSegment c.peek = true) (hl : t.Lexical) (hr : c.Reads (nameRestTokens x) c')
    (hx : NameRestOk wildcards x c') :
    NameRestOk wildcards ("." ++ t.text ++ x.1, x.2) c'
      ∧ nameRestTokens ("." ++ t.text ++ x.1, x.2)
        = [symbol "" ".", Token.word "" t.text] ++ nameRestTokens x := by
  obtain ⟨rest, wildcard⟩ := x
  obtain ⟨hw, ss, hss, hok⟩ := hx
  have hdot : c.peek.is "." = true → (wildcard || c'.isAt "." || !ss.isEmpty) = true := by
    intro hd
    cases ss with
    | cons s ss => simp
    | nil =>
      cases wildcard with
      | true => rfl
      | false =>
        have hnil : nameRestTokens (rest, false) = [] := by
          simp [nameRestTokens, hss, dotTokens, wildcardTokens]
        rw [hnil] at hr
        simp [Cursor.isAt, hr.peek_nil, hd]
  have hseg := isSegmentText_of_isSegment ht hl hdot
  have hwt : Scan.isWordText t.text.toList = true := by
    simp only [isSegmentText, Bool.and_eq_true] at hseg
    exact hseg.1.1
  have hsegs : Name.segments ("." ++ t.text ++ rest) = "" :: t.text :: ss := by
    rw [String.append_assoc, Name.segments_dot_append,
      Name.segments_append (dotless_of_isWordText hwt) hss, String.append_empty]
  refine ⟨⟨hw, t.text :: ss, hsegs, areSegmentTexts_cons.mpr ⟨hseg, hok⟩⟩, ?_⟩
  simp [nameRestTokens, hsegs, hss, dotTokens, List.flatMap_cons]

theorem nameRest_sound (wildcards : Bool) :
    Sound (nameRest wildcards) nameRestTokens (NameRestOk wildcards) := by
  refine Sound.fix fun self hself => ?_
  intro c x c' hc h
  obtain ⟨s, c1, h1, h2⟩ := bind_ok.mp h
  obtain ⟨rfl, rfl | ⟨hdot, hlead, hlead1, ⟨rfl, hw, hstar⟩ | ⟨rfl, hseg⟩⟩⟩ := nameStep_ok h1
  · obtain ⟨rfl, rfl⟩ := pure_ok.mp h2
    exact ⟨Reads.refl _, fun h => (by cases h), [], rfl, rfl⟩
  · simp only [bind_ok, pure_ok] at h2
    obtain ⟨t, c2, hb, u, c3, hb', rfl, rfl⟩ := h2
    have hk := Cursor.peekAt_kind_ne_eof hc (by decide) hstar
    obtain ⟨hr, hl, _⟩ := bump_dot_reads hc hdot hlead hk hb hb'
    rw [Token.unplaced_of_is_symbol (by decide) hl hstar, hlead1] at hr
    exact ⟨hr, fun _ => hw, [], rfl, rfl⟩
  · simp only [bind_ok, pure_ok] at h2
    obtain ⟨t, c2, hb, u, c3, hb', x, c4, hx, rfl, rfl⟩ := h2
    have hk : (c1.peekAt 1).kind = .word := by
      simp only [Token.isSegment, Bool.and_eq_true, beq_iff_eq] at hseg
      exact hseg.1.1
    obtain ⟨hr, hl, hpeek⟩ := bump_dot_reads hc hdot hlead (by rw [hk]; decide) hb hb'
    obtain ⟨hr', hok⟩ := hself _ _ _ (hr.sane hc) hx
    obtain ⟨hok', htokens⟩ := nameRestOk_segment (by rw [hpeek]; exact hseg) hl hr' hok
    refine ⟨?_, hok'⟩
    rw [htokens]
    refine Reads.trans ?_ hr'
    rw [Token.unplaced_of_word hk, hlead1] at hr
    exact hr

theorem dotted_sound (wildcards : Bool) :
    Sound (dotted wildcards) (fun x => nameTokens x.1 x.2.1 ++ wildcardTokens x.2.2) fun x c' =>
      (x.2.2 = true → wildcards = true)
        ∧ isDottedText (x.2.2 || c'.isAt ".") x.2.1 = true := by
  intro c x c' hc h
  simp only [dotted, get_bind, ite_run, ite_ok, bind_ok, pure_ok, unexpected_ok, and_false,
    or_false] at h
  obtain ⟨hn, t, c1, h1, y, c2, h2, rfl, rfl⟩ := h
  have hk := kind_of_isName hn
  obtain ⟨hr, hl, rfl⟩ := bump_reads hc (by rw [hk]; decide) h1
  obtain ⟨hr', hw, ss, hss, hok⟩ := nameRest_sound wildcards _ _ _ (hr.sane hc) h2
  rw [Token.Lexical, hk] at hl
  have hsegs : Name.segments (c.peek.text ++ y.1) = c.peek.text :: ss := by
    rw [Name.segments_append (dotless_of_isWordText hl) hss, String.append_empty]
  refine ⟨?_, hw, ?_⟩
  · rw [Token.unplaced_of_word hk] at hr
    have := hr.trans hr'
    rw [nameRestTokens, hss] at this
    simpa [nameTokens, hsegs, dottedTokens] using this
  · simp only [isDottedText, hsegs, Bool.and_eq_true]
    exact ⟨isNameText_of_isName hn hl, hok⟩

/-! ### Modifiers -/

theorem isAtModifier_eq (c : Cursor) : c.isAtModifier =
    (c.peek.kind == .word && (c.peek.isMarker || modifierWords.contains c.peek.text)
      && !(c.peek.text == "default" && (c.peekAt 1).is ":")) := rfl

theorem modifier_reads {c c' : Cursor} {i : Ident} (hc : c.Sane) (hm : c.isAtModifier = true)
    (h : modifier c = .ok (i, c')) : c.Reads [.word i.lead i.name] c'
      ∧ isModifierText i.name = true := by
  simp only [modifier, get_bind, ite_run, ite_ok, bind_ok, pure_ok, unsupported_ok, and_false,
    false_or] at h
  obtain ⟨i', c1, h1, _, rfl, rfl⟩ := h
  simp only [isAtModifier_eq, Bool.and_eq_true, beq_iff_eq] at hm
  obtain ⟨⟨hk, hmod⟩, _⟩ := hm
  obtain ⟨hr, hw, hname, _⟩ := word_reads hc hk h1
  refine ⟨hr, ?_⟩
  rw [← hname] at hmod
  have hmark : (Token.word "" i.name).isMarker = c.peek.isMarker := by
    rw [Token.isMarker, Token.isMarker, Token.word_text, hname]
  rw [isModifierText, hw, hmark]
  exact hmod

theorem modifiers_sound : Sound modifiers modifierTokens fun ms c' =>
    (∀ m ∈ ms, isModifierText m.name = true) ∧ c'.isAtModifier = false := by
  intro c ms c' hc h
  obtain ⟨hr, hall⟩ := Sound.many (fun c x c' hc hm hx => modifier_reads hc hm hx) c ms c' hc h
  refine ⟨?_, hall⟩
  rw [modifierTokens, List.map_eq_flatMap]
  exact hr

/-! ### Types -/

/-- No bound of a wildcard stands at the cursor. -/
def Unbounded (c : Cursor) : Prop := c.isAt "extends" = false ∧ c.isAt "super" = false

/-- What a type satisfies: it is well formed where no dot follows, and it is no `?` in front of a
bound. -/
def TypeOk (t : TypeName) (c' : Cursor) : Prop :=
  (c'.isAt "." = false → t.WellFormed) ∧ (t.isAny = true → Unbounded c')

theorem typeHead_sound : Sound typeHead (fun x => typeHeadTokens x.1 x.2) fun x c' =>
    (x.2 = "?" ∧ Unbounded c') ∨ isDottedText (c'.isAt ".") x.2 = true := by
  intro c x c' hc h
  simp only [typeHead, anyType, get_bind, ite_run, ite_ok, bind_ok, pure_ok, unsupported_ok,
    and_false, false_or] at h
  rcases h with ⟨hat, t, c1, h1, hbound, rfl, rfl⟩ | ⟨_, y, c1, h1, rfl, rfl⟩
  · refine ⟨bump_symbol hc (by decide) hat h1, .inl ⟨rfl, ?_⟩⟩
    simpa [Unbounded] using hbound
  · obtain ⟨lead, name, wildcard⟩ := y
    obtain ⟨hr, hw, hok⟩ := dotted_sound false _ _ _ hc h1
    obtain rfl : wildcard = false := by
      rw [Bool.eq_false_iff]
      intro ht
      exact absurd (hw ht) (by decide)
    refine ⟨?_, .inr hok⟩
    show c.Reads (typeHeadTokens lead name) c'
    rw [typeHeadTokens, if_neg (ne_any_of_isDottedText hok)]
    simpa [wildcardTokens] using hr

theorem typeArgumentsOf_sound {type : Parser TypeName} (h : Sound type TypeName.tokens TypeOk) :
    Sound (typeArgumentsOf type) TypeArguments.tokens fun a _ => a.WellFormed := by
  intro c a c' hc hrun
  simp only [typeArgumentsOf, bind_ok, pure_ok] at hrun
  obtain ⟨id, c1, h1, l, c2, h2, rfl, rfl⟩ := hrun
  have hr1 := fresh_reads h1
  obtain ⟨hr2, hitems⟩ := Sound.listing (Q := TypeName.WellFormed) (by decide) (by decide) h
    (fun t c hat hok => hok.1 (Cursor.isAt_unique hat (by decide)))
    (fun t c hat hok => hok.1 (Cursor.isAt_unique hat (by decide))) _ _ _ (hr1.sane hc) h2
  refine ⟨?_, (TypeName.wellFormedAll_iff _).mpr hitems⟩
  rw [TypeArguments.tokens_eq]
  exact hr1.trans hr2

theorem typeNameOf_sound {self : Parser TypeName} (h : Sound self TypeName.tokens TypeOk) :
    Sound (typeNameOf self) TypeName.tokens TypeOk := by
  intro c t c' hc hrun
  simp only [typeNameOf, get_bind, ite_run, ite_ok, bind_ok, pure_ok, unsupported_ok, and_false,
    false_or] at hrun
  obtain ⟨id, c1, h1, head, c2, h2, args, c3, h3, _, rfl, rfl⟩ := hrun
  have hr1 := fresh_reads h1
  obtain ⟨hr2, hhead⟩ := typeHead_sound _ _ _ (hr1.sane hc) h2
  have hc2 := hr2.sane (hr1.sane hc)
  simp only [whenAt, get_bind, ite_run, ite_ok, bind_ok, pure_ok] at h3
  rcases h3 with ⟨hat, a, c4, h4, rfl, rfl⟩ | ⟨_, rfl, rfl⟩
  · obtain ⟨hr4, ha⟩ := typeArgumentsOf_sound h _ _ _ hc2 h4
    refine ⟨hr1.trans (hr2.trans hr4), fun _ => ⟨?_, rfl, ha⟩, fun hany => ?_⟩
    · rw [Cursor.isAt_unique hat (by decide)] at hhead
      rcases hhead with ⟨hq, _⟩ | hd
      · simp [isTypeText, hq]
      · simp [isTypeText, hd]
    · simp [TypeName.isAny] at hany
  · refine ⟨hr1.trans hr2, fun hdot => ⟨?_, rfl⟩, fun hany => ?_⟩
    · rw [hdot] at hhead
      rcases hhead with ⟨hq, _⟩ | hd
      · simp [isTypeText, hq]
      · simp [isTypeText, hd]
    · simp only [TypeName.isAny, Option.isNone_none, Bool.and_true, beq_iff_eq] at hany
      rcases hhead with ⟨_, hu⟩ | hd
      · exact hu
      · exact absurd hany (ne_any_of_isDottedText hd)

theorem typeName_sound : Sound typeName TypeName.tokens TypeOk :=
  Sound.fix fun _ h => typeNameOf_sound h

theorem typeArguments_sound : Sound typeArguments TypeArguments.tokens fun a _ => a.WellFormed :=
  typeArgumentsOf_sound typeName_sound

/-- A clause is read where its keyword stands; its last type is well formed where no dot follows. -/
theorem typeClause_reads {keyword : String} (hkey : Token.isKeywordText keyword = true)
    {c c' : Cursor} {clause : TypeClause} (hc : c.Sane) (hat : c.isAt keyword = true)
    (hrun : typeClause c = .ok (clause, c')) : c.Reads (clause.tokens keyword) c'
      ∧ (c'.isAt "." = false → clause.WellFormed) := by
  simp only [typeClause, bind_ok, pure_ok] at hrun
  obtain ⟨id, c1, h1, t, c2, h2, types, c3, h3, rfl, rfl⟩ := hrun
  have hr1 := fresh_reads h1
  have hc1 := hr1.sane hc
  have hr2 := bump_word hc1 hkey (hr1.isAt_nil hat) h2
  obtain ⟨hr3, hne, hitems⟩ := Sound.separated (Q := TypeName.WellFormed) typeName_sound
    (fun t c hat hok => hok.1 (Cursor.isAt_unique hat (by decide))) _ _ _ (hr2.sane hc1) h3
  exact ⟨hr1.trans (hr2.trans hr3), fun hdot => ⟨hne, hitems fun t hok => hok.1 hdot⟩⟩

/-! ### Literals -/

theorem isLexeme_literalKind {kind : TokenKind} {c : Char} {cs : List Char}
    (hk : kind = .number ∨ kind = .string ∨ kind = .character)
    (h : Scan.isLexeme kind (c :: cs) = true) : literalKind c = kind ∧ c ≠ '-' := by
  rcases hk with rfl | rfl | rfl
  · simp only [Scan.isLexeme, Scan.isNumberText, Bool.and_eq_true] at h
    refine ⟨by rw [literalKind, if_pos h.1], ?_⟩
    rintro rfl
    exact absurd h.1 (by decide)
  · simp only [Scan.isLexeme, Scan.isQuotedText, Bool.and_eq_true, beq_iff_eq] at h
    rw [h.1]
    exact ⟨rfl, by decide⟩
  · simp only [Scan.isLexeme, Scan.isQuotedText, Bool.and_eq_true, beq_iff_eq] at h
    rw [h.1]
    exact ⟨rfl, by decide⟩

/-- A literal of one token. -/
theorem literal_spec {t : Token} (hl : t.Lexical)
    (hk : (t.kind = .number ∨ t.kind = .string ∨ t.kind = .character) ∨
      (t.kind = .word ∧ ["true", "false", "null"].contains t.text = true)) (id : NodeId) :
    Literal.tokens ⟨id, t.lead, t.text⟩ = [t.unplaced] ∧ isLiteralText t.text = true := by
  obtain ⟨kind, lead, text, offset⟩ := t
  rw [Token.Lexical] at hl
  rcases hk with hk | ⟨rfl, hw⟩
  · cases htext : text.toList with
    | nil => exact absurd htext (Scan.isLexeme_ne_nil hl)
    | cons c cs =>
      rw [htext] at hl
      obtain ⟨hkind, hminus⟩ := isLexeme_literalKind hk hl
      have hword : kind ≠ .word := by rcases hk with rfl | rfl | rfl <;> decide
      constructor
      · simp only [Literal.tokens, htext, hkind]
        rfl
      · simp [isLiteralText, htext, hkind, hl, hword]
  · have hall : ∀ s ∈ ["true", "false", "null"], isLiteralText s = true := by decide
    refine ⟨?_, hall text (List.contains_iff_mem.mp hw)⟩
    simp only [List.contains_cons, List.contains_nil, Bool.or_false, Bool.or_eq_true,
      beq_iff_eq] at hw
    rcases hw with rfl | rfl | rfl <;> simp [Literal.tokens, literalKind] <;> rfl

theorem literal_reads {c c' : Cursor} {e : Expr} (hc : c.Sane)
    (hk : (c.peek.kind = .number ∨ c.peek.kind = .string ∨ c.peek.kind = .character) ∨
      (c.peek.kind = .word ∧ ["true", "false", "null"].contains c.peek.text = true))
    (h : literal c = .ok (e, c')) :
    c.Reads e.tokens c' ∧ (∀ dotted, e.WellFormed dotted) ∧ e.level = operatorLevels.length := by
  simp only [literal, bind_ok, pure_ok] at h
  obtain ⟨id, c1, h1, t, c2, h2, rfl, rfl⟩ := h
  have hr1 := fresh_reads h1
  have hne : c.peek.kind ≠ .eof := by
    rcases hk with (hk | hk | hk) | ⟨hk, _⟩ <;> rw [hk] <;> decide
  obtain ⟨hr2, hl, rfl⟩ := bump_reads (hr1.sane hc) (by rw [hr1.peek_nil]; exact hne) h2
  rw [hr1.peek_nil] at hr2 hl ⊢
  obtain ⟨htokens, hok⟩ := literal_spec hl hk id
  refine ⟨?_, fun _ => hok, rfl⟩
  rw [Expr.tokens, htokens]
  exact hr1.trans hr2

theorem negativeNumber_reads {c c' : Cursor} {e : Expr} (hc : c.Sane) (hat : c.isAt "-" = true)
    (h : negativeNumber c = .ok (e, c')) :
    c.Reads e.tokens c' ∧ (∀ dotted, e.WellFormed dotted) ∧ e.level = operatorLevels.length := by
  simp only [negativeNumber, get_bind, ite_run, ite_ok, bind_ok, pure_ok, unsupported_ok, and_false,
    false_or, Bool.or_eq_true, bne_iff_ne, ne_eq, not_or, Decidable.not_not] at h
  obtain ⟨⟨hk, hlead⟩, id, c1, h1, t, c2, h2, u, c3, h3, rfl, rfl⟩ := h
  cases h1
  obtain ⟨t', rest, hr, hi⟩ := Cursor.exists_of_isAt hc (by decide) hat
  have hr2 := bump_symbol (c := { c with nextId := c.nextId + 1 }) ⟨hc.1, hc.2, hc.3⟩
    (by decide) hat h2
  rw [bump_cons (c := { c with nextId := c.nextId + 1 }) hr] at h2
  obtain ⟨rfl, rfl⟩ := Prod.mk.inj (Except.ok.inj h2)
  have hnext := peek_advance hr
  have hc2 := hr2.sane ⟨hc.1, hc.2, hc.3⟩
  have hpeek : ({ rest := rest, eof := c.eof, nextId := c.nextId + 1 } : Cursor).peek = c.peekAt 1 :=
    hnext
  obtain ⟨hr3, hl, rfl⟩ := bump_reads hc2 (by rw [hpeek, hk]; decide) h3
  rw [hpeek] at hr3 hl ⊢
  have htext : ("-" ++ (c.peekAt 1).text).toList = '-' :: (c.peekAt 1).text.toList := by
    rw [String.toList_append]
    rfl
  rw [Token.Lexical, hk] at hl
  refine ⟨?_, fun _ => ?_, rfl⟩
  · have hr0 : c.Reads [] { c with nextId := c.nextId + 1 } := Reads.of_same rfl rfl
    have := hr0.trans (hr2.trans hr3)
    simpa [Expr.tokens, Literal.tokens, htext, Token.unplaced, hk, hlead] using this
  · show isLiteralText _ = true
    rw [isLiteralText, htext]
    exact hl

/-! ### Expressions -/

/-- What an expression satisfies: it is well formed and took every assignment that follows. -/
def ExprOk (e : Expr) (c' : Cursor) : Prop :=
  e.WellFormed false ∧ c'.isAtOperator ["="] = false

/-- What an operand satisfies in front of a cursor. -/
def OperandOk (e : Expr) (c' : Cursor) : Prop :=
  e.WellFormed (c'.isAt ".") ∧ e.level = operatorLevels.length

section

variable {self : Parser Expr} (hself : Sound self Expr.tokens ExprOk)

include hself

theorem argumentsOf_sound : Sound (argumentsOf self) (Listing.tokens "(" ")" Expr.tokens)
    fun l _ => Expr.WellFormedAll l.items := by
  intro c l c' hc h
  obtain ⟨hr, hitems⟩ := Sound.listing (Q := Expr.WellFormed false) (by decide) (by decide) hself
    (fun _ _ _ hok => hok.1) (fun _ _ _ hok => hok.1) c l c' hc h
  exact ⟨hr, (Expr.wellFormedAll_iff _).mpr hitems⟩

theorem creationOf_reads {c c' : Cursor} {e : Expr} (hc : c.Sane) (hat : c.isAt "new" = true)
    (h : creationOf self c = .ok (e, c')) : c.Reads e.tokens c' ∧ OperandOk e c' := by
  simp only [creationOf, bind_ok, pure_ok] at h
  obtain ⟨id, c1, h1, t, c2, h2, type, c3, h3, args, c4, h4, rfl, rfl⟩ := h
  have hr1 := fresh_reads h1
  have hc1 := hr1.sane hc
  have hr2 := bump_word hc1 (by decide) (hr1.isAt_nil hat) h2
  have hc2 := hr2.sane hc1
  obtain ⟨hr3, htype⟩ := typeName_sound _ _ _ hc2 h3
  obtain ⟨hr4, hargs⟩ := argumentsOf_sound hself _ _ _ (hr3.sane hc2) h4
  have hopen : c3.isAt "(" = true := by
    simp only [argumentsOf, listing, bind_ok] at h4
    obtain ⟨lead, c5, h5, _⟩ := h4
    exact (expect_symbol (hr3.sane hc2) (by decide) h5).2
  refine ⟨?_, ⟨htype.1 (Cursor.isAt_unique hopen (by decide)), hargs⟩, rfl⟩
  rw [Expr.tokens_create]
  exact hr1.trans (hr2.trans (hr3.trans hr4))

theorem nameOrCallOf_reads {c c' : Cursor} {e : Expr} (hc : c.Sane)
    (h : nameOrCallOf self c = .ok (e, c')) : c.Reads e.tokens c' ∧ OperandOk e c' := by
  simp only [nameOrCallOf, get_bind, ite_run, ite_ok, bind_ok, pure_ok] at h
  rcases h with ⟨_, id, c1, h1, i, c2, h2, args, c3, h3, rfl, rfl⟩ | ⟨_, i, c1, h1, rfl, rfl⟩
  · have hr1 := fresh_reads h1
    have hc1 := hr1.sane hc
    obtain ⟨hr2, hname, _⟩ := ident_reads hc1 h2
    obtain ⟨hr3, hargs⟩ := argumentsOf_sound hself _ _ _ (hr2.sane hc1) h3
    refine ⟨?_, ⟨rfl, hname, hargs⟩, rfl⟩
    rw [Expr.tokens_call]
    exact hr1.trans (hr2.trans hr3)
  · obtain ⟨hr1, hname, _⟩ := ident_reads hc h1
    exact ⟨hr1, hname, rfl⟩

theorem parensOf_reads {c c' : Cursor} {e : Expr} (hc : c.Sane) (hat : c.isAt "(" = true)
    (h : parensOf self c = .ok (e, c')) : c.Reads e.tokens c' ∧ OperandOk e c' := by
  simp only [parensOf, bind_ok, pure_ok] at h
  obtain ⟨id, c1, h1, t, c2, h2, inner, c3, h3, close, c4, h4, rfl, rfl⟩ := h
  have hr1 := fresh_reads h1
  have hc1 := hr1.sane hc
  have hr2 := bump_symbol hc1 (by decide) (hr1.isAt_nil hat) h2
  have hc2 := hr2.sane hc1
  obtain ⟨hr3, hinner⟩ := hself _ _ _ hc2 h3
  obtain ⟨hr4, _⟩ := expect_symbol (hr3.sane hc2) (by decide) h4
  exact ⟨hr1.trans (hr2.trans (hr3.trans hr4)), hinner.1, rfl⟩

theorem primaryOf_sound : Sound (primaryOf self) Expr.tokens OperandOk := by
  intro c e c' hc h
  have hliteral : (c.peek.kind = .number ∨ c.peek.kind = .string ∨ c.peek.kind = .character) ∨
      (c.peek.kind = .word ∧ ["true", "false", "null"].contains c.peek.text = true) →
      literal c = .ok (e, c') → c.Reads e.tokens c' ∧ OperandOk e c' := by
    intro hk h
    obtain ⟨hr, hok, hlevel⟩ := literal_reads hc hk h
    exact ⟨hr, hok _, hlevel⟩
  have hat : ∀ text, c.peek.kind = .word ∨ c.peek.kind = .symbol → (c.peek.text == text) = true →
      c.isAt text = true := by
    intro text hk ht
    rcases hk with hk | hk <;> simp [Cursor.isAt, Token.is, hk, ht]
  cases hk : c.peek.kind with
  | number =>
    simp only [primaryOf, get_bind, hk] at h
    exact hliteral (.inl (.inl hk)) h
  | string =>
    simp only [primaryOf, get_bind, hk] at h
    exact hliteral (.inl (.inr (.inl hk))) h
  | character =>
    simp only [primaryOf, get_bind, hk] at h
    exact hliteral (.inl (.inr (.inr hk))) h
  | word =>
    simp only [primaryOf, get_bind, hk, ite_run, ite_ok, unexpected_ok, and_false, or_false] at h
    rcases h with ⟨hlit, h⟩ | ⟨_, ⟨hnew, h⟩ | ⟨_, hn, h⟩⟩
    · exact hliteral (.inr ⟨hk, hlit⟩) h
    · exact creationOf_reads hself hc (hat _ (.inl hk) hnew) h
    · exact nameOrCallOf_reads hself hc h
  | symbol =>
    simp only [primaryOf, get_bind, hk, ite_run, ite_ok, unexpected_ok, and_false, or_false] at h
    rcases h with ⟨hopen, h⟩ | ⟨_, hminus, h⟩
    · exact parensOf_reads hself hc (hat _ (.inr hk) hopen) h
    · obtain ⟨hr, hok, hlevel⟩ := negativeNumber_reads hc (hat _ (.inr hk) hminus) h
      exact ⟨hr, hok _, hlevel⟩
  | eof =>
    simp only [primaryOf, get_bind, hk, unexpected_ok] at h

/-- One access or call keeps what is in front of it. -/
theorem selectionOf_reads {target : Expr} {c c' : Cursor} {e : Expr} (hc : c.Sane)
    (htarget : OperandOk target c) (hat : c.isAt "." = true)
    (h : selectionOf self target c = .ok (e, c')) :
    OperandOk e c' ∧ ∃ ts, ts ≠ [] ∧ c.Reads ts c' ∧ e.tokens = target.tokens ++ ts := by
  simp only [selectionOf, get_bind, ite_run, ite_ok, bind_ok, pure_ok] at h
  obtain ⟨id, c1, h1, t, c2, h2, i, c3, h3, h⟩ := h
  have hr1 := fresh_reads h1
  have hc1 := hr1.sane hc
  have hr2 := bump_symbol hc1 (by decide) (hr1.isAt_nil hat) h2
  have hc2 := hr2.sane hc1
  obtain ⟨hr3, hname⟩ := memberName_reads hc2 h3
  obtain ⟨hok, hlevel⟩ := htarget
  rw [hat] at hok
  rcases h with ⟨hopen, args, c4, h4, rfl, rfl⟩ | ⟨_, rfl, rfl⟩
  · obtain ⟨hr4, hargs⟩ := argumentsOf_sound hself _ _ _ (hr3.sane hc2) h4
    rw [Cursor.isAt_unique hopen (by decide)] at hname
    refine ⟨⟨⟨hok, hlevel, isNameText_of_isSegmentText hname, hargs⟩, rfl⟩, _, ?_,
      hr1.trans (hr2.trans (hr3.trans hr4)), ?_⟩
    · simp
    · rw [Expr.tokens_memberCall]
      rfl
  · refine ⟨⟨⟨hok, hlevel, hname, rfl⟩, rfl⟩, _, ?_, hr1.trans (hr2.trans hr3), ?_⟩
    · simp
    · rw [Expr.tokens]
      rfl

theorem operandOf_sound : Sound (operandOf self) Expr.tokens fun e _ =>
    e.WellFormed false ∧ e.level = operatorLevels.length := by
  intro c e c' hc h
  simp only [operandOf, bind_ok] at h
  obtain ⟨first, c1, h1, h2⟩ := h
  obtain ⟨hr1, hfirst⟩ := primaryOf_sound hself _ _ _ hc h1
  obtain ⟨⟨hok, hlevel⟩, hend, ts, hr2, htokens⟩ := repeatWhile_reads (I := OperandOk)
    (fun a c b c' hc hI hm hs => selectionOf_reads hself hc hI hm hs) (hr1.sane hc) hfirst h2
  rw [hend] at hok
  refine ⟨?_, hok, hlevel⟩
  rw [htokens]
  exact hr1.trans hr2

end

theorem operatorLevel_of_mem {k : Nat} (hk : k < operatorLevels.length) {op : String}
    (h : operatorLevels[k].contains op = true) : operatorLevel op = k := by
  have hall : ∀ k : Fin operatorLevels.length, ∀ op ∈ operatorLevels.get k, operatorLevel op = k := by
    decide
  exact hall ⟨k, hk⟩ op (List.contains_iff_mem.mp h)

/-- An operator and its right operand behind a left one. -/
theorem operationOf_reads {right : Parser Expr} {P : Expr → Cursor → Prop}
    (hright : Sound right Expr.tokens P) {left e : Expr} {level : List String} {c c' : Cursor}
    (hc : c.Sane) (hat : c.isAtOperator level = true) (h : operationOf right left c = .ok (e, c')) :
    ∃ id opLead op r, e = .binary ⟨id, left, opLead, op, r⟩ ∧ level.contains op = true ∧ P r c'
      ∧ c.Reads (symbol opLead op :: r.tokens) c' := by
  simp only [operationOf, bind_ok, pure_ok] at h
  obtain ⟨id, c1, h1, t, c2, h2, r, c3, h3, rfl, rfl⟩ := h
  simp only [Cursor.isAtOperator, Bool.and_eq_true, beq_iff_eq] at hat
  have hr1 := fresh_reads h1
  have hc1 := hr1.sane hc
  rw [← hr1.peek_nil] at hat
  obtain ⟨hr2, _, rfl⟩ := bump_reads hc1 (by rw [hat.1]; decide) h2
  obtain ⟨hr3, hP⟩ := hright _ _ _ (hr2.sane hc1) h3
  refine ⟨id, _, _, r, rfl, hat.2, hP, ?_⟩
  rw [Token.unplaced, hat.1] at hr2
  exact hr1.trans (hr2.trans hr3)

/-- Operations of level `k` or tighter ones. -/
theorem operationsOf_sound {self : Parser Expr} (hself : Sound self Expr.tokens ExprOk) (n : Nat) :
    ∀ k, 1 ≤ k → k + n = operatorLevels.length →
      Sound (operationsOf self (operatorLevels.drop k)) Expr.tokens fun e _ =>
        e.WellFormed false ∧ k ≤ e.level := by
  induction n with
  | zero =>
    intro k _ hk
    rw [List.drop_eq_nil_of_le (by omega)]
    refine (operandOf_sound hself).mono fun e _ hok => ⟨hok.1, ?_⟩
    rw [hok.2]
    omega
  | succ n ih =>
    intro k hpos hk
    have hlt : k < operatorLevels.length := by omega
    have htight := ih (k + 1) (by omega) (by omega)
    rw [List.drop_eq_getElem_cons hlt]
    intro c e c' hc h
    simp only [operationsOf, bind_ok] at h
    obtain ⟨first, c1, h1, h2⟩ := h
    obtain ⟨hr1, hfirst, hlevel⟩ := htight _ _ _ hc h1
    have hstep : ∀ a c b c', c.Sane → (a.WellFormed false ∧ k ≤ a.level) →
        Cursor.isAtOperator operatorLevels[k] c = true →
        operationOf (operationsOf self (operatorLevels.drop (k + 1))) a c = .ok (b, c') →
        (b.WellFormed false ∧ k ≤ b.level) ∧
          ∃ ts, ts ≠ [] ∧ c.Reads ts c' ∧ b.tokens = a.tokens ++ ts := by
      intro a c b c' hc hI hm hs
      obtain ⟨id, opLead, op, r, rfl, hop, hr, hread⟩ := operationOf_reads htight hc hm hs
      have hk := operatorLevel_of_mem hlt hop
      refine ⟨⟨⟨hI.1, hr.1, by omega, by omega, by omega, .inr (by omega)⟩, ?_⟩, _, by simp,
        hread, by rw [Expr.tokens]⟩
      rw [Expr.level]
      omega
    obtain ⟨hok, _, ts, hr2, htokens⟩ := repeatWhile_reads
      (I := fun e _ => e.WellFormed false ∧ k ≤ e.level) hstep (hr1.sane hc) ⟨hfirst, by omega⟩ h2
    refine ⟨?_, hok⟩
    rw [htokens]
    exact hr1.trans hr2

theorem exprOf_eq (self : Parser Expr) : exprOf self = (do
    let first ← operationsOf self (operatorLevels.drop 1)
    repeatWhile (Cursor.isAtOperator ["="]) (operationOf self) first) := rfl

/-- An assignment takes all assignments to its right, so the loop has one round at most. -/
theorem exprOf_sound {self : Parser Expr} (hself : Sound self Expr.tokens ExprOk) :
    Sound (exprOf self) Expr.tokens ExprOk := by
  intro c e c' hc h
  rw [exprOf_eq] at h
  obtain ⟨first, c1, h1, h2⟩ := bind_ok.mp h
  obtain ⟨hr1, hfirst, hlevel⟩ := operationsOf_sound hself 6 1 (by omega) rfl _ _ _ hc h1
  have hstep : ∀ a c b c', c.Sane →
      (a.WellFormed false ∧ (c.isAtOperator ["="] = true → 1 ≤ a.level)) →
      c.isAtOperator ["="] = true → operationOf self a c = .ok (b, c') →
      (b.WellFormed false ∧ (c'.isAtOperator ["="] = true → 1 ≤ b.level)) ∧
        ∃ ts, ts ≠ [] ∧ c.Reads ts c' ∧ b.tokens = a.tokens ++ ts := by
    intro a c b c' hc hI hm hs
    obtain ⟨id, opLead, op, r, rfl, hop, hr, hread⟩ := operationOf_reads hself hc hm hs
    have hk := operatorLevel_of_mem (k := 0) (by decide) hop
    have hpos := hI.2 hm
    refine ⟨⟨⟨hI.1, hr.1, ?_, hpos, by omega, .inl hk⟩, fun hat => ?_⟩, _, by simp, hread,
      by rw [Expr.tokens]⟩
    · rw [hk]
      decide
    · rw [hr.2] at hat
      cases hat
  obtain ⟨hok, hend, ts, hr2, htokens⟩ := repeatWhile_reads
    (I := fun e c => e.WellFormed false ∧ (c.isAtOperator ["="] = true → 1 ≤ e.level)) hstep
    (hr1.sane hc) ⟨hfirst, fun _ => hlevel⟩ h2
  refine ⟨?_, hok.1, hend⟩
  rw [htokens]
  exact hr1.trans hr2

/-- **Expressions are read without loss**, and give well-formed trees. -/
theorem expr_sound : Sound expr Expr.tokens ExprOk := Sound.fix fun _ h => exprOf_sound h

end Migration.Parser
