import Migration.Proofs.Tree.WellFormed

/-!
# What a production reads

`Cursor.Reads c ts c'` says that the tokens between two cursors are `ts`, up to their places. A
production is `Sound` when whatever it gives is written with exactly the tokens that it has read, and
satisfies a given property. Soundness is composed from the soundness of the parts: this file does so
for the single tokens and for the combinators.

The end of the file is no token: at a cursor that is `Sane` every token that a production asks for
has text, so nothing is read beyond the last one.
-/

namespace Migration

/-! ### Running a parser -/

namespace Parser

variable {α β : Type}

theorem bind_ok {p : Parser α} {f : α → Parser β} {c d : Cursor} {y : β} :
    (p >>= f) c = .ok (y, d) ↔ ∃ x c', p c = .ok (x, c') ∧ f x c' = .ok (y, d) := by
  constructor
  · intro h
    obtain ⟨⟨x, c'⟩, h1, h2⟩ := bind_eq_ok.mp h
    exact ⟨x, c', h1, h2⟩
  · rintro ⟨x, c', h1, h2⟩
    exact bind_eq_ok.mpr ⟨(x, c'), h1, h2⟩

theorem pure_ok {a y : α} {c d : Cursor} :
    (pure a : Parser α) c = .ok (y, d) ↔ y = a ∧ d = c := by
  constructor
  · intro h
    cases h
    exact ⟨rfl, rfl⟩
  · rintro ⟨rfl, rfl⟩
    rfl

theorem map_ok {f : α → β} {p : Parser α} {c d : Cursor} {y : β} :
    (f <$> p) c = .ok (y, d) ↔ ∃ x, p c = .ok (x, d) ∧ y = f x := by
  constructor
  · intro h
    obtain ⟨⟨x, c'⟩, h1, h2⟩ := bind_eq_ok.mp (h : (p c >>= fun x => .ok (f x.1, x.2)) = _)
    cases h2
    exact ⟨x, h1, rfl⟩
  · rintro ⟨x, h1, rfl⟩
    exact bind_eq_ok.mpr ⟨(x, d), h1, rfl⟩

theorem get_bind {f : Cursor → Parser β} {c : Cursor} :
    ((get : Parser Cursor) >>= f) c = f c c := rfl

theorem ite_run {b : Prop} [Decidable b] {p q : Parser α} {c : Cursor} :
    (if b then p else q) c = if b then p c else q c := by
  split <;> rfl

theorem ite_ok {ε : Type} {b : Prop} [Decidable b] {x y : Except ε α} {a : α} :
    (if b then x else y) = .ok a ↔ (b ∧ x = .ok a) ∨ (¬ b ∧ y = .ok a) := by
  by_cases h : b <;> simp [h]

theorem unexpected_ok {expected : Expectation} {c d : Cursor} {y : α} :
    (unexpected expected : Parser α) c = .ok (y, d) ↔ False := by
  simp [unexpected]

theorem unsupported_ok {what : Construct} {c d : Cursor} {y : α} :
    (unsupported what : Parser α) c = .ok (y, d) ↔ False := by
  simp [unsupported]

end Parser

/-! ### Tokens by their text -/

namespace Token

/-- The text is that of a symbol, and of no word or number. -/
def isSymbolText (s : String) : Bool :=
  Scan.isLexeme .symbol s.toList && !Scan.isLexeme .word s.toList
    && !Scan.isLexeme .number s.toList

/-- The text is that of a word, and of no symbol or number. -/
def isKeywordText (s : String) : Bool :=
  Scan.isLexeme .word s.toList && !Scan.isLexeme .symbol s.toList
    && !Scan.isLexeme .number s.toList

/-- The text of the token is one of its kind. -/
def Lexical (t : Token) : Prop := Scan.isLexeme t.kind t.text.toList = true

theorem text_of_is {t : Token} {s : String} (h : t.is s = true) : t.text = s := by
  simp only [is, Bool.and_eq_true, beq_iff_eq] at h
  exact h.2

theorem unplaced_of_word {t : Token} (h : t.kind = .word) : t.unplaced = word t.lead t.text := by
  rw [unplaced, h]
  rfl

theorem unplaced_of_is_symbol {t : Token} {s : String} (hs : isSymbolText s = true)
    (hl : t.Lexical) (h : t.is s = true) : t.unplaced = symbol t.lead s := by
  obtain ⟨kind, lead, text, offset⟩ := t
  have ht : text = s := text_of_is h
  subst ht
  simp only [isSymbolText, Bool.and_eq_true, Bool.not_eq_true'] at hs
  cases kind with
  | symbol => rfl
  | word => rw [Lexical, hs.1.2] at hl; cases hl
  | number => rw [Lexical, hs.2] at hl; cases hl
  | string => simp [is] at h
  | character => simp [is] at h
  | eof => cases hl

theorem unplaced_of_is_word {t : Token} {s : String} (hs : isKeywordText s = true)
    (hl : t.Lexical) (h : t.is s = true) : t.unplaced = word t.lead s := by
  obtain ⟨kind, lead, text, offset⟩ := t
  have ht : text = s := text_of_is h
  subst ht
  simp only [isKeywordText, Bool.and_eq_true, Bool.not_eq_true'] at hs
  cases kind with
  | word => rfl
  | symbol => rw [Lexical, hs.1.2] at hl; cases hl
  | number => rw [Lexical, hs.2] at hl; cases hl
  | string => simp [is] at h
  | character => simp [is] at h
  | eof => cases hl

end Token

/-! ### Cursors -/

namespace Cursor

/-- The tokens ahead are tokens, and the end of the file has no text. -/
structure Sane (c : Cursor) : Prop where
  eof_kind : c.eof.kind = .eof
  eof_text : c.eof.text = ""
  lexical : ∀ t ∈ c.rest, t.Lexical

/-- The tokens between two cursors. -/
structure Reads (c : Cursor) (ts : List Token) (c' : Cursor) : Prop where
  rest : ∃ read, c.rest = read ++ c'.rest ∧ read.map Token.unplaced = ts
  eof : c'.eof = c.eof

theorem Reads.refl (c : Cursor) : c.Reads [] c := ⟨⟨[], rfl, rfl⟩, rfl⟩

theorem Reads.trans {c c' c'' : Cursor} {ts us : List Token} (h : c.Reads ts c')
    (h' : c'.Reads us c'') : c.Reads (ts ++ us) c'' := by
  obtain ⟨⟨a, ha, rfl⟩, he⟩ := h
  obtain ⟨⟨b, hb, rfl⟩, he'⟩ := h'
  refine ⟨⟨a ++ b, ?_, List.map_append⟩, he'.trans he⟩
  rw [ha, hb, List.append_assoc]

theorem Reads.sane {c c' : Cursor} {ts : List Token} (h : c.Reads ts c') (hc : c.Sane) :
    c'.Sane := by
  obtain ⟨⟨a, ha, rfl⟩, he⟩ := h
  refine ⟨by rw [he]; exact hc.eof_kind, by rw [he]; exact hc.eof_text, fun t ht => ?_⟩
  exact hc.lexical t (by rw [ha]; exact List.mem_append_right a ht)

theorem Reads.length {c c' : Cursor} {ts : List Token} (h : c.Reads ts c') :
    c.rest.length = ts.length + c'.rest.length := by
  obtain ⟨⟨a, ha, rfl⟩, _⟩ := h
  rw [ha, List.length_append, List.length_map]

/-- The next number is no part of what is read. -/
theorem Reads.of_same {c d : Cursor} (hr : d.rest = c.rest) (he : d.eof = c.eof) :
    c.Reads [] d := ⟨⟨[], hr.symm, rfl⟩, he⟩

theorem Reads.peek_nil {c c' : Cursor} (h : c.Reads [] c') : c'.peek = c.peek := by
  obtain ⟨⟨a, ha, hnil⟩, he⟩ := h
  rw [List.map_eq_nil_iff] at hnil
  subst hnil
  rw [peek, peek, ha, he]
  rfl

theorem Reads.isAt_nil {c c' : Cursor} {text : String} (h : c.Reads [] c')
    (hat : c.isAt text = true) : c'.isAt text = true := by
  rw [isAt, h.peek_nil]
  exact hat

/-- The first token that is read is the one at the cursor. -/
theorem Reads.isAt_head {c c' : Cursor} {t : Token} {ts : List Token} (h : c.Reads (t :: ts) c')
    (text : String) : c.isAt text = t.is text := by
  obtain ⟨⟨read, hread, hts⟩, _⟩ := h
  obtain ⟨u, us, rfl, rfl, _⟩ := List.map_eq_cons_iff.mp hts
  rw [isAt, peek, hread]
  rfl

theorem Reads.cons_nil {c : Cursor} {t : Token} {rest : List Token} (h : c.rest = t :: rest) :
    c.Reads [t.unplaced] { c with rest } := ⟨⟨[t], h, rfl⟩, rfl⟩

theorem isAt_unique {c : Cursor} {a b : String} (h : c.isAt a = true) (hne : a ≠ b) :
    c.isAt b = false := by
  rw [Bool.eq_false_iff]
  intro hb
  exact hne ((Token.text_of_is h).symm.trans (Token.text_of_is hb))

/-- There is a token at the cursor. -/
theorem exists_of_isAt {c : Cursor} {text : String} (hc : c.Sane) (hne : text ≠ "")
    (h : c.isAt text = true) : ∃ t rest, c.rest = t :: rest ∧ t.is text = true := by
  cases hr : c.rest with
  | nil =>
    have := Token.text_of_is h
    rw [peek, hr, List.headD_nil, hc.eof_text] at this
    exact absurd this.symm hne
  | cons t rest =>
    refine ⟨t, rest, rfl, ?_⟩
    rw [isAt, peek, hr] at h
    exact h

theorem peekAt_kind_ne_eof {c : Cursor} {n : Nat} {text : String} (hc : c.Sane) (hne : text ≠ "")
    (h : (c.peekAt n).is text = true) : (c.peekAt n).kind ≠ .eof := by
  have htext := Token.text_of_is h
  rw [peekAt, List.getD_eq_getElem?_getD] at htext ⊢
  cases hn : c.rest[n]? with
  | none =>
    rw [hn, Option.getD_none, hc.eof_text] at htext
    exact absurd htext.symm hne
  | some t =>
    intro hk
    have hl := hc.lexical t (List.mem_of_getElem? hn)
    rw [Option.getD_some] at hk
    rw [Token.Lexical, hk] at hl
    cases hl

theorem exists_of_peek_kind {c : Cursor} (hc : c.Sane) (h : c.peek.kind ≠ .eof) :
    ∃ t rest, c.rest = t :: rest ∧ c.peek = t := by
  cases hr : c.rest with
  | nil =>
    rw [peek, hr] at h
    exact absurd hc.eof_kind h
  | cons t rest => exact ⟨t, rest, rfl, by rw [peek, hr]; rfl⟩

end Cursor

/-! ### Single tokens -/

namespace Parser

open Cursor (Sane Reads)

variable {α : Type}

theorem bump_cons {c : Cursor} {t : Token} {rest : List Token} (h : c.rest = t :: rest) :
    bump c = .ok (t, { c with rest }) := by
  rw [bump, Cursor.peek, Cursor.advance, h]
  rfl

theorem fresh_reads {c c' : Cursor} {id : NodeId} (h : fresh c = .ok (id, c')) : c.Reads [] c' := by
  cases h
  exact Reads.of_same rfl rfl

/-- A token is read where one stands. -/
theorem bump_reads {c c' : Cursor} {t : Token} (hc : c.Sane) (hk : c.peek.kind ≠ .eof)
    (h : bump c = .ok (t, c')) : c.Reads [t.unplaced] c' ∧ t.Lexical ∧ t = c.peek := by
  obtain ⟨u, rest, hr, hp⟩ := Cursor.exists_of_peek_kind hc hk
  rw [bump_cons hr] at h
  cases h
  exact ⟨Reads.cons_nil hr, hc.lexical t (by rw [hr]; exact List.mem_cons_self), hp.symm⟩

theorem bump_reads_of_isAt {c c' : Cursor} {t : Token} {text : String} (hc : c.Sane)
    (hne : text ≠ "") (hat : c.isAt text = true) (h : bump c = .ok (t, c')) :
    c.Reads [t.unplaced] c' ∧ t.Lexical ∧ t.is text = true := by
  obtain ⟨u, rest, hr, hu⟩ := Cursor.exists_of_isAt hc hne hat
  rw [bump_cons hr] at h
  cases h
  exact ⟨Reads.cons_nil hr, hc.lexical t (by rw [hr]; exact List.mem_cons_self), hu⟩

theorem bump_symbol {c c' : Cursor} {t : Token} {text : String} (hc : c.Sane)
    (hs : Token.isSymbolText text = true) (hat : c.isAt text = true)
    (h : bump c = .ok (t, c')) : c.Reads [.symbol t.lead text] c' := by
  have hne : text ≠ "" := by rintro rfl; revert hs; decide
  obtain ⟨hr, hl, hi⟩ := bump_reads_of_isAt hc hne hat h
  rw [← Token.unplaced_of_is_symbol hs hl hi]
  exact hr

theorem bump_word {c c' : Cursor} {t : Token} {text : String} (hc : c.Sane)
    (hs : Token.isKeywordText text = true) (hat : c.isAt text = true)
    (h : bump c = .ok (t, c')) : c.Reads [.word t.lead text] c' := by
  have hne : text ≠ "" := by rintro rfl; revert hs; decide
  obtain ⟨hr, hl, hi⟩ := bump_reads_of_isAt hc hne hat h
  rw [← Token.unplaced_of_is_word hs hl hi]
  exact hr

theorem expect_symbol {c c' : Cursor} {lead : Trivia} {text : String} (hc : c.Sane)
    (hs : Token.isSymbolText text = true) (h : expect text c = .ok (lead, c')) :
    c.Reads [.symbol lead text] c' ∧ c.isAt text = true := by
  simp only [expect, get_bind, ite_run, ite_ok, bind_ok, pure_ok, unexpected_ok, and_false,
    or_false] at h
  obtain ⟨hat, t, c1, h1, rfl, rfl⟩ := h
  exact ⟨bump_symbol hc hs hat h1, hat⟩

theorem takeLead_sane {c c' : Cursor} {lead : Trivia} (hc : c.Sane)
    (h : takeLead c = .ok (lead, c')) : c'.Sane := by
  cases h
  cases hr : c.rest with
  | nil =>
    rw [Cursor.stripLead, hr]
    exact ⟨hc.eof_kind, hc.eof_text, fun t ht => hc.lexical t (by rw [hr]; exact ht)⟩
  | cons t rest =>
    rw [Cursor.stripLead, hr]
    refine ⟨hc.eof_kind, hc.eof_text, fun u hu => ?_⟩
    rcases List.mem_cons.mp hu with rfl | hu
    · exact hc.lexical t (by rw [hr]; exact List.mem_cons_self)
    · exact hc.lexical u (by rw [hr]; exact List.mem_cons_of_mem _ hu)

/-- The trivia that a node takes belongs to the first token that is read after it. -/
theorem takeLead_reads {c c1 c' : Cursor} {lead : Trivia} {ts : List Token}
    (h1 : takeLead c = .ok (lead, c1)) (h : c1.Reads ts c') (hne : ts ≠ []) :
    c.Reads (prependLead lead ts) c' ∧ HeadBare ts := by
  cases h1
  obtain ⟨⟨read, hread, rfl⟩, he⟩ := h
  have hread0 : read ≠ [] := by
    rintro rfl
    exact hne rfl
  obtain ⟨u, us, rfl⟩ := List.exists_cons_of_ne_nil hread0
  cases hr : c.rest with
  | nil =>
    rw [Cursor.stripLead, hr] at hread
    cases hread
  | cons t rest =>
    rw [Cursor.stripLead, hr] at hread he
    obtain ⟨rfl, rfl⟩ := List.cons.inj hread
    refine ⟨⟨⟨t :: us, hr, ?_⟩, he⟩, ?_⟩
    · rw [List.map_cons, List.map_cons, prependLead, Cursor.peek, hr]
      simp [Token.unplaced, Token.bare]
    · intro v hv
      cases hv
      rfl

/-! ### Sound productions -/

/-- Whatever the production gives is written with the tokens that it has read, and satisfies `P`
together with the cursor behind it. -/
def Sound (p : Parser α) (tokens : α → List Token) (P : α → Cursor → Prop) : Prop :=
  ∀ c x c', c.Sane → p c = .ok (x, c') → c.Reads (tokens x) c' ∧ P x c'

theorem Sound.mono {p : Parser α} {tokens : α → List Token} {P Q : α → Cursor → Prop}
    (h : Sound p tokens P) (hPQ : ∀ x c, P x c → Q x c) : Sound p tokens Q := by
  intro c x c' hc hp
  obtain ⟨hr, hP⟩ := h c x c' hc hp
  exact ⟨hr, hPQ _ _ hP⟩

/-- A recursive production is sound when it is in terms of a sound one. -/
theorem Sound.fix {F : Parser α → Parser α} {tokens : α → List Token} {P : α → Cursor → Prop}
    (hF : ∀ q, Sound q tokens P → Sound (F q) tokens P) : Sound (fix F) tokens P := by
  have happrox : ∀ n, Sound (approx F n) tokens P := by
    intro n
    induction n with
    | zero =>
      intro c x c' _ h
      rw [approx, unexpected_ok] at h
      exact h.elim
    | succ n ih =>
      intro c x c' hc h
      exact hF _ ih c x c' hc h
  intro c x c' hc h
  exact happrox _ c x c' hc h

theorem Sound.whenAt {text : String} {p : Parser α} {tokens : α → List Token}
    {P : α → Cursor → Prop}
    (h : ∀ c x c', c.Sane → c.isAt text = true → p c = .ok (x, c') →
      c.Reads (tokens x) c' ∧ P x c') :
    Sound (whenAt text p) (optionTokens tokens) fun o c' => ∀ x ∈ o, P x c' := by
  intro c o c' hc ho
  simp only [Parser.whenAt, get_bind, ite_run, ite_ok, bind_ok, pure_ok] at ho
  rcases ho with ⟨hat, x, c1, h1, rfl, rfl⟩ | ⟨_, rfl, rfl⟩
  · obtain ⟨hr, hP⟩ := h _ _ _ hc hat h1
    exact ⟨hr, fun y hy => by cases hy; exact hP⟩
  · exact ⟨Reads.refl _, fun y hy => by cases hy⟩

/-- One round of `many`, given the rounds after it. -/
def manyOf (more : Cursor → Bool) (p : Parser α) (self : Parser (List α)) : Parser (List α) := do
  if more (← get) then
    let a ← p
    return a :: (← self)
  else return []

/-- Repeated reading: each item is read where more is asked for, and in the end no more is. Behind an
item there is more to read, or the end. -/
theorem many_reads {more : Cursor → Bool} {p : Parser α} {tokens : α → List Token}
    {P : α → Cursor → Prop}
    (h : ∀ c x c', c.Sane → more c = true → p c = .ok (x, c') → c.Reads (tokens x) c' ∧ P x c')
    {c c' : Cursor} {xs : List α} (hc : c.Sane) (hrun : many more p c = .ok (xs, c')) :
    c.Reads (xs.flatMap tokens) c' ∧ (∀ x ∈ xs, P x c' ∨ ∃ d, more d = true ∧ P x d)
      ∧ more c' = false ∧ (c = c' ∨ more c = true) := by
  have happrox : ∀ n c (xs : List α), c.Sane → approx (manyOf more p) n c = .ok (xs, c') →
      c.Reads (xs.flatMap tokens) c' ∧ (∀ x ∈ xs, P x c' ∨ ∃ d, more d = true ∧ P x d)
        ∧ more c' = false ∧ (c = c' ∨ more c = true) := by
    intro n
    induction n with
    | zero =>
      intro c xs _ hrun
      exact (unexpected_ok.mp hrun).elim
    | succ n ih =>
      intro c xs hc hrun
      simp only [approx, manyOf, get_bind, ite_run, ite_ok, bind_ok, pure_ok] at hrun
      rcases hrun with ⟨hm, x, c1, h1, ys, c2, h2, rfl, rfl⟩ | ⟨hm, rfl, rfl⟩
      · obtain ⟨hr1, hP⟩ := h _ _ _ hc hm h1
        obtain ⟨hr2, hall, hend, hnext⟩ := ih _ _ (hr1.sane hc) h2
        refine ⟨by rw [List.flatMap_cons]; exact hr1.trans hr2, fun y hy => ?_, hend, .inr hm⟩
        rcases List.mem_cons.mp hy with rfl | hy
        · rcases hnext with rfl | hnext
          · exact .inl hP
          · exact .inr ⟨_, hnext, hP⟩
        · exact hall y hy
      · exact ⟨Reads.refl _, fun y hy => (by cases hy), by simpa using hm, .inl rfl⟩
  exact happrox _ c xs hc hrun

/-- Repeated reading of items that satisfy a property wherever they stand. -/
theorem Sound.many {more : Cursor → Bool} {p : Parser α} {tokens : α → List Token}
    {P : α → Prop}
    (h : ∀ c x c', c.Sane → more c = true → p c = .ok (x, c') → c.Reads (tokens x) c' ∧ P x) :
    Sound (many more p) (List.flatMap tokens) fun xs c' => (∀ x ∈ xs, P x) ∧ more c' = false := by
  intro c xs c' hc hrun
  obtain ⟨hr, hall, hend, _⟩ := many_reads (P := fun x _ => P x) h hc hrun
  refine ⟨hr, fun x hx => ?_, hend⟩
  rcases hall x hx with hP | ⟨_, _, hP⟩ <;> exact hP

/-- A loop: each round reads a token at least, what has been read is kept in front, and the loop ends
only where no more is asked for. -/
theorem repeatWhile_reads {more : Cursor → Bool} {step : α → Parser α} {tokens : α → List Token}
    {I : α → Cursor → Prop}
    (hstep : ∀ a c b c', c.Sane → I a c → more c = true → step a c = .ok (b, c') →
      I b c' ∧ ∃ ts, ts ≠ [] ∧ c.Reads ts c' ∧ tokens b = tokens a ++ ts)
    {a b : α} {c c' : Cursor} (hc : c.Sane) (hI : I a c)
    (h : repeatWhile more step a c = .ok (b, c')) :
    I b c' ∧ more c' = false ∧ ∃ ts, c.Reads ts c' ∧ tokens b = tokens a ++ ts := by
  have hloop : ∀ n, ∀ {a c}, c.Sane → I a c → c.rest.length < n →
      repeatUpTo more step n a c = .ok (b, c') →
      I b c' ∧ more c' = false ∧ ∃ ts, c.Reads ts c' ∧ tokens b = tokens a ++ ts := by
    intro n
    induction n with
    | zero => intro a c _ _ hn; omega
    | succ n ih =>
      intro a c hc hI hn h
      simp only [repeatUpTo, get_bind, ite_run, ite_ok, bind_ok, pure_ok] at h
      rcases h with ⟨hm, a1, c1, h1, h2⟩ | ⟨hm, rfl, rfl⟩
      · obtain ⟨hI1, ts, hne, hr, ht⟩ := hstep _ _ _ _ hc hI hm h1
        have hpos := List.length_pos_iff.mpr hne
        have hlen := hr.length
        obtain ⟨hI2, hend, us, hr2, hu⟩ := ih (hr.sane hc) hI1 (by omega) h2
        exact ⟨hI2, hend, ts ++ us, hr.trans hr2, by rw [hu, ht, List.append_assoc]⟩
      · exact ⟨hI, by simpa using hm, [], Reads.refl _, by simp⟩
  exact hloop _ hc hI (Nat.lt_succ_self _) h

/-! ### Comma-separated lists -/

theorem itemTokens_padItems (tokens : α → List Token) (first : α) (more : List (Trivia × α)) :
    itemTokens tokens (padItems first more)
      = tokens first ++ more.flatMap fun m => .symbol m.1 "," :: tokens m.2 := by
  induction more generalizing first with
  | nil => simp [padItems, itemTokens]
  | cons m more ih =>
    obtain ⟨after, next⟩ := m
    have hne : padItems next more ≠ [] := by cases more <;> simp [padItems]
    obtain ⟨q, rest, hq⟩ := List.exists_cons_of_ne_nil hne
    rw [padItems, hq, itemTokens, ← hq, ih, List.flatMap_cons]
    rfl

theorem itemsOk_padItems {P : α → Prop} {first : α} {more : List (Trivia × α)} (hf : P first)
    (hm : ∀ m ∈ more, P m.2) : ItemsOk P (padItems first more) := by
  induction more generalizing first with
  | nil => exact ⟨hf, rfl⟩
  | cons m more ih =>
    obtain ⟨after, next⟩ := m
    have hne : padItems next more ≠ [] := by cases more <;> simp [padItems]
    obtain ⟨q, rest, hq⟩ := List.exists_cons_of_ne_nil hne
    have hrest := @ih next (hm _ List.mem_cons_self) fun x hx => hm x (List.mem_cons_of_mem _ hx)
    rw [padItems]
    rw [hq] at hrest ⊢
    exact ⟨hf, hrest⟩

/-- Items separated by commas. A property of an item that depends on what follows the item is asked
for at a comma and at the end. -/
theorem Sound.separated {item : Parser α} {tokens : α → List Token} {P : α → Cursor → Prop}
    {Q : α → Prop} (h : Sound item tokens P) (hcomma : ∀ x c, c.isAt "," = true → P x c → Q x) :
    Sound (separated item) (itemTokens tokens) fun ps c' =>
      ps ≠ [] ∧ ((∀ x, P x c' → Q x) → ItemsOk Q ps) := by
  intro c ps c' hc hrun
  simp only [Parser.separated, bind_ok, pure_ok] at hrun
  obtain ⟨first, c1, h1, more, c2, h2, rfl, rfl⟩ := hrun
  obtain ⟨hr1, hP1⟩ := h _ _ _ hc h1
  have hc1 := hr1.sane hc
  have hone : ∀ c x c', c.Sane → c.isAt "," = true →
      (do let comma ← bump; return (comma.lead, ← item) : Parser (Trivia × α)) c = .ok (x, c') →
      c.Reads (.symbol x.1 "," :: tokens x.2) c' ∧ P x.2 c' := by
    intro c x c' hc hat hx
    simp only [bind_ok, pure_ok] at hx
    obtain ⟨t, d, hb, y, e, hy, rfl, rfl⟩ := hx
    have hr := bump_symbol hc (by decide) hat hb
    obtain ⟨hr', hP⟩ := h _ _ _ (hr.sane hc) hy
    exact ⟨hr.trans hr', hP⟩
  obtain ⟨hr2, hall, hend, hnext⟩ := many_reads (P := fun m c => P m.2 c) hone hc1 h2
  refine ⟨by rw [itemTokens_padItems]; exact hr1.trans hr2, ?_, fun hQ => ?_⟩
  · cases more <;> simp [padItems]
  · refine itemsOk_padItems ?_ fun m hm => ?_
    · rcases hnext with rfl | hnext
      · exact hQ _ hP1
      · exact hcomma _ _ hnext hP1
    · rcases hall m hm with hP | ⟨d, hd, hP⟩
      · exact hQ _ hP
      · exact hcomma _ _ hd hP

/-- Items separated by commas between brackets. -/
theorem Sound.listing {opening closing : String} {item : Parser α} {tokens : α → List Token}
    {P : α → Cursor → Prop} {Q : α → Prop} (ho : Token.isSymbolText opening = true)
    (hcl : Token.isSymbolText closing = true) (h : Sound item tokens P)
    (hcomma : ∀ x c, c.isAt "," = true → P x c → Q x)
    (hclose : ∀ x c, c.isAt closing = true → P x c → Q x) :
    Sound (listing opening closing item) (Listing.tokens opening closing tokens) fun l _ =>
      ItemsOk Q l.items := by
  intro c l c' hc hrun
  simp only [Parser.listing, bind_ok, get_bind, ite_run, ite_ok, pure_ok] at hrun
  obtain ⟨lead, c1, h1, hrest⟩ := hrun
  obtain ⟨hr1, _⟩ := expect_symbol hc ho h1
  have hc1 := hr1.sane hc
  rcases hrest with ⟨_, _, _, ⟨rfl, rfl⟩, close, c3, h3, rfl, rfl⟩
    | ⟨_, items, c2, h2, close, c3, h3, rfl, rfl⟩
  · obtain ⟨hr3, _⟩ := expect_symbol hc1 hcl h3
    exact ⟨hr1.trans hr3, trivial⟩
  · obtain ⟨hr2, _, hitems⟩ := Sound.separated h hcomma _ _ _ hc1 h2
    obtain ⟨hr3, hat⟩ := expect_symbol (hr2.sane hc1) hcl h3
    refine ⟨?_, hitems fun x hP => hclose x _ hat hP⟩
    have := hr1.trans (hr2.trans hr3)
    rw [Listing.tokens]
    simpa using this

end Parser

end Migration
