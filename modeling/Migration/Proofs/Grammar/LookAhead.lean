import Migration.Proofs.Grammar.CompleteTypes

/-!
# Looking ahead for a variable

A statement is a variable when a type, a name and then `=` or `;` follow. The look-ahead runs the
production for types and forgets the outcome, so what it finds is a fact about the tokens alone
(`declaresVariable_iff`). As no semicolon can stand in what it looks at, only the tokens up to the
next one matter (`looksVariable_append`).
-/

namespace Migration

open Token (symbol)
open Migration.Parser (Gives)

variable {c : Cursor} {ts r : List Token} {tail : Trivia}

theorem Token.is_of_isName {t : Token} (h : t.isName = true) {text : String}
    (hname : isNameText text = false) (hl : t.Lexical) : t.is text = false := by
  rw [Bool.eq_false_iff]
  intro his
  have hk := Parser.kind_of_isName h
  have htext := Token.text_of_is his
  rw [Token.Lexical, hk, htext] at hl
  have := Parser.isNameText_of_isName h (by rw [htext]; exact hl)
  rw [htext, hname] at this
  cases this

theorem mem_lexical (hc : c.At ts tail) {t : Token} (ht : t ∈ ts) : t.Lexical := by
  rw [← hc.ahead] at ht
  obtain ⟨u, hu, rfl⟩ := List.mem_map.mp ht
  exact hc.lexical u hu

/-- **The look-ahead is about the tokens alone.** -/
theorem declaresVariable_iff (hc : c.At ts tail) :
    c.declaresVariable = true ↔ DeclaresAhead ts := by
  constructor
  · intro h
    rw [Cursor.declaresVariable] at h
    split at h
    case h_2 => cases h
    case h_1 type c' hrun =>
    rw [Bool.and_eq_true, Bool.or_eq_true] at h
    obtain ⟨hname, hsign⟩ := h
    obtain ⟨hr, hok⟩ := Parser.typeName_sound _ _ _ hc.sane hrun
    obtain ⟨hc', hts⟩ := hr.at hc
    have hsane := hc'.sane
    obtain ⟨n, rest, hrest, hn⟩ :=
      Cursor.exists_of_peek_kind hsane (by rw [Parser.kind_of_isName hname]; decide)
    rw [hn] at hname
    have hk1 : (c'.peekAt 1).kind ≠ .eof := by
      rcases hsign with hs | hs
      · exact Cursor.peekAt_kind_ne_eof hsane (by decide) hs
      · exact Cursor.peekAt_kind_ne_eof hsane (by decide) hs
    rw [← Parser.peek_advance hrest] at hk1 hsign
    have hsane1 : Cursor.Sane { c' with rest := rest } :=
      ⟨hsane.1, hsane.2, fun t ht => hsane.3 t (by rw [hrest]; exact List.mem_cons_of_mem _ ht)⟩
    obtain ⟨s, rest', hrest', hs⟩ := Cursor.exists_of_peek_kind hsane1 hk1
    rw [hs] at hsign
    have hlex : n.Lexical := hsane.3 n (by rw [hrest]; exact List.mem_cons_self)
    have hdot : c'.isAt "." = false := by
      rw [Cursor.isAt, hn]
      exact Token.is_of_isName hname (by decide) hlex
    have hrow : c'.rest.map Token.unplaced = n.unplaced :: s.unplaced :: rest'.map Token.unplaced := by
      have : rest = s :: rest' := hrest'
      rw [hrest, this]
      rfl
    refine ⟨type, n.unplaced, s.unplaced, rest'.map Token.unplaced, by rw [hts, hrow], hok.1 hdot,
      hname, hsign, fun hany hsup => ?_⟩
    have hnot := (hok.2 hany).2
    rw [Cursor.isAt, hn, Token.is, Parser.kind_of_isName hname] at hnot
    rw [Token.unplaced_text] at hsup
    simp [hsup] at hnot
  · rintro ⟨type, n, s, more, rfl, htype, hn, hs, hsup⟩
    have hlex : n.Lexical := mem_lexical hc (by simp)
    have hfollow : Parser.TypeFollow type (n :: s :: more) := by
      refine ⟨Token.is_of_isName hn (by decide) hlex, Token.is_of_isName hn (by decide) hlex,
        Token.is_of_isName hn (by decide) hlex,
        fun hany => ⟨Token.is_of_isName hn (by decide) hlex, ?_⟩⟩
      rw [headIs_cons, Bool.eq_false_iff]
      intro his
      exact hsup hany (Token.text_of_is his)
    obtain ⟨y, c', hrun, hc', _⟩ := Parser.gives_typeName htype hfollow hc
    have hsign : (c'.peekAt 1).is "=" = s.is "=" ∧ (c'.peekAt 1).is ";" = s.is ";" :=
      ⟨hc'.peekAt_is 1 (by decide), hc'.peekAt_is 1 (by decide)⟩
    simp only [Cursor.declaresVariable, hrun, Parser.isName_of_at hc', hn, hsign.1, hsign.2]
    simpa using hs

theorem isAtLocalVar_iff (hc : c.At ts tail) : c.isAtLocalVar = true ↔ LooksVariable ts := by
  have hmark : c.peek.isMarker = true ↔ ∃ t ∈ ts.head?, t.isMarker = true := by
    cases ts with
    | nil =>
      have htext := congrArg Token.text (hc.peekAt 0)
      rw [← Cursor.peek_eq_peekAt, Token.unplaced_text] at htext
      simp [Token.isMarker, htext]
    | cons t ts =>
      have hpeek := hc.peek
      rw [← hpeek]
      simp [Token.isMarker]
  rw [Cursor.isAtLocalVar, Bool.or_eq_true, Bool.or_eq_true, hc.isAt (by decide), hmark,
    declaresVariable_iff hc, LooksVariable, or_assoc]

/-! ### What is looked at -/

/-- The token may be a part of a type. -/
def Token.isTypePart (t : Token) : Bool :=
  t.kind == .word && Scan.isWordText t.text.toList || ["?", ".", "<", ">", ","].contains t.text

theorem Token.is_of_isTypePart {t : Token} (h : t.isTypePart = true) {text : String}
    (hword : Scan.isWordText text.toList = false)
    (hmark : ["?", ".", "<", ">", ","].contains text = false) : t.is text = false := by
  rw [Bool.eq_false_iff]
  intro his
  have htext := Token.text_of_is his
  rw [Token.isTypePart, htext, hword, hmark, Bool.and_false] at h
  cases h

theorem isTypePart_word {lead : Trivia} {s : String} (h : Scan.isWordText s.toList = true) :
    (Token.word lead s).isTypePart = true := by
  rw [Token.isTypePart, Token.word_kind, Token.word_text, h]
  rfl

theorem isTypePart_dotTokens {ss : List String} (h : ∀ s ∈ ss, Scan.isWordText s.toList = true) :
    ∀ t ∈ dotTokens ss, t.isTypePart = true := by
  intro t ht
  obtain ⟨s, hs, ht⟩ := List.mem_flatMap.mp ht
  simp only [List.mem_cons, List.not_mem_nil, or_false] at ht
  rcases ht with rfl | rfl
  · rfl
  · exact isTypePart_word (h s hs)

theorem isTypePart_typeHeadTokens {lead : Trivia} {name : String} (h : isTypeText name = true) :
    ∀ t ∈ typeHeadTokens lead name, t.isTypePart = true := by
  by_cases hany : name = "?"
  · subst hany
    exact List.forall_mem_singleton.mpr rfl
  · rw [isTypeText, beq_false_of_ne hany, Bool.false_or, isDottedText_eq] at h
    rw [typeHeadTokens, if_neg hany, nameTokens]
    cases hsegments : Name.segments name with
    | nil => exact List.forall_mem_nil _
    | cons s ss =>
      rw [hsegments] at h
      obtain ⟨hs, hss⟩ := List.forall_mem_cons.mp (isChainText_words h)
      exact List.forall_mem_cons.mpr ⟨isTypePart_word hs, isTypePart_dotTokens hss⟩

mutual

theorem TypeName.isTypePart_tokens : (t : TypeName) → t.WellFormed →
    ∀ u ∈ t.tokens, u.isTypePart = true
  | ⟨_, _, _, none, _⟩, h => isTypePart_typeHeadTokens h.1
  | ⟨_, _, _, some args, _⟩, h =>
    List.forall_mem_append.mpr ⟨isTypePart_typeHeadTokens h.1, args.isTypePart_tokens h.2.2⟩
termination_by structural t => t

theorem TypeArguments.isTypePart_tokens : (a : TypeArguments) → a.WellFormed →
    ∀ u ∈ a.tokens, u.isTypePart = true
  | ⟨_, ⟨_, items, _⟩⟩, h =>
    List.forall_mem_append.mpr ⟨List.forall_mem_cons.mpr ⟨rfl, TypeName.isTypePart_tokensAll items h⟩,
      List.forall_mem_singleton.mpr rfl⟩
termination_by structural a => a

theorem TypeName.isTypePart_tokensAll : (ps : List (Padded TypeName)) → TypeName.WellFormedAll ps →
    ∀ u ∈ TypeName.tokensAll ps, u.isTypePart = true
  | [], _ => List.forall_mem_nil _
  | [⟨t, _⟩], h => t.isTypePart_tokens h.1
  | ⟨t, _⟩ :: q :: rest, h =>
    List.forall_mem_append.mpr ⟨t.isTypePart_tokens h.1,
      List.forall_mem_cons.mpr ⟨rfl, TypeName.isTypePart_tokensAll (q :: rest) h.2⟩⟩
termination_by structural ps => ps

end

/-- A row in which an element comes after others that are not `x` can be cut off behind `x`. -/
theorem cut_behind {α : Type} {us as more r : List α} {x s : α} (h : us ++ x :: r = as ++ s :: more)
    (hx : x ∉ as) : ∃ more', us ++ [x] = as ++ s :: more' := by
  rcases List.append_eq_append_iff.mp h with ⟨bs, rfl, hbs⟩ | ⟨bs, rfl, hbs⟩
  · cases bs with
    | nil =>
      obtain ⟨rfl, rfl⟩ := List.cons.inj hbs
      exact ⟨[], by simp⟩
    | cons b bs =>
      obtain ⟨rfl, _⟩ := List.cons.inj hbs
      exact absurd (List.mem_append_right us List.mem_cons_self) hx
  · cases bs with
    | nil =>
      obtain ⟨rfl, rfl⟩ := List.cons.inj hbs
      exact ⟨[], by simp⟩
    | cons b bs =>
      obtain ⟨rfl, _⟩ := List.cons.inj hbs
      exact ⟨bs ++ [x], by simp⟩

/-- What the look-ahead looks at ends in front of the next token that is no part of a type and no
name, or with it. -/
theorem declaresAhead_cut {us : List Token} {x : Token} (hpart : x.isTypePart = false)
    (hx : x.isName = false) : DeclaresAhead (us ++ x :: r) ↔ DeclaresAhead (us ++ [x]) := by
  constructor
  · rintro ⟨type, n, s, more, hrow, htype, hn, h⟩
    have hnot : x ∉ type.tokens ++ [n] := by
      intro hmem
      rcases List.mem_append.mp hmem with hmem | hmem
      · rw [type.isTypePart_tokens htype _ hmem] at hpart
        cases hpart
      · rw [List.mem_singleton.mp hmem, hn] at hx
        cases hx
    have hrow' : us ++ x :: r = (type.tokens ++ [n]) ++ s :: more := by
      rw [hrow]
      simp
    obtain ⟨more', hcut⟩ := cut_behind hrow' hnot
    exact ⟨type, n, s, more', by rw [hcut]; simp, htype, hn, h⟩
  · rintro ⟨type, n, s, more, hrow, h⟩
    refine ⟨type, n, s, more ++ r, ?_, h⟩
    have := congrArg (· ++ r) hrow
    simpa using this

theorem looksVariable_cut {us : List Token} {x : Token} (hpart : x.isTypePart = false)
    (hx : x.isName = false) : LooksVariable (us ++ x :: r) ↔ LooksVariable (us ++ [x]) := by
  rw [LooksVariable, LooksVariable, declaresAhead_cut hpart hx]
  cases us with
  | nil => rfl
  | cons u us => rfl

/-- **Only the tokens up to the next semicolon matter** for whether a variable follows. -/
theorem looksVariable_append {us : List Token} (semi : Trivia) :
    LooksVariable (us ++ symbol semi ";" :: r) ↔ LooksVariable (us ++ [symbol semi ";"]) :=
  looksVariable_cut rfl rfl

end Migration
