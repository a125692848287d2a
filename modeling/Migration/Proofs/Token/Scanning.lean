import Migration.Token.Scan

/-!
# Scanning and spelling

What the scanner takes from a text, and which rows of tokens it gives back when their text is scanned
again. A row is `Scannable` in front of some final trivia when every token has closed trivia in front
of it and is cut off where it ends, whatever the scanner would like to add to it:

* `scannable_of_tokensUpTo`: the tokens of a source are scannable, and they spell the source.
* `tokensUpTo_spell`: a scannable row is what the scanner finds in its own text.

Both are about the row up to the offsets of its tokens (`Token.unplaced`), which depend on where the
row stands.
-/

namespace Migration

namespace Token

/-- The token without its place in the source. -/
def unplaced (t : Token) : Token := { t with offset := 0 }

@[simp] theorem unplaced_kind (t : Token) : t.unplaced.kind = t.kind := rfl
@[simp] theorem unplaced_lead (t : Token) : t.unplaced.lead = t.lead := rfl
@[simp] theorem unplaced_text (t : Token) : t.unplaced.text = t.text := rfl
@[simp] theorem unplaced_unplaced (t : Token) : t.unplaced.unplaced = t.unplaced := rfl
@[simp] theorem unplaced_is (t : Token) (text : String) : t.unplaced.is text = t.is text := rfl

/-- A word at no place. -/
def word (lead : Trivia) (text : String) : Token := ⟨.word, lead, text, 0⟩

/-- A symbol at no place. -/
def symbol (lead : Trivia) (text : String) : Token := ⟨.symbol, lead, text, 0⟩

@[simp] theorem word_kind (lead : Trivia) (text : String) : (word lead text).kind = .word := rfl
@[simp] theorem word_lead (lead : Trivia) (text : String) : (word lead text).lead = lead := rfl
@[simp] theorem word_text (lead : Trivia) (text : String) : (word lead text).text = text := rfl
@[simp] theorem symbol_kind (lead : Trivia) (text : String) : (symbol lead text).kind = .symbol := rfl
@[simp] theorem symbol_lead (lead : Trivia) (text : String) : (symbol lead text).lead = lead := rfl
@[simp] theorem symbol_text (lead : Trivia) (text : String) : (symbol lead text).text = text := rfl

end Token

/-- The characters that a row of tokens spells. -/
def spell (ts : List Token) : List Char := ts.flatMap fun t => t.lead.toList ++ t.text.toList

@[simp] theorem spell_nil : spell [] = [] := rfl

@[simp] theorem spell_cons (t : Token) (ts : List Token) :
    spell (t :: ts) = t.lead.toList ++ (t.text.toList ++ spell ts) := by
  simp [spell, List.flatMap_cons]

@[simp] theorem spell_append (as bs : List Token) : spell (as ++ bs) = spell as ++ spell bs := by
  simp [spell, List.flatMap_append]

theorem spell_map_unplaced (ts : List Token) : spell (ts.map Token.unplaced) = spell ts := by
  simp [spell, List.flatMap_map]

theorem eq_ok_of_toOption {ε α : Type} {x : Except ε α} {a : α} (h : x.toOption = some a) :
    x = .ok a := by
  cases x with
  | error e => cases h
  | ok b =>
    cases h
    rfl

/-- A step that succeeds after another one: both succeed. -/
theorem bind_eq_ok {ε α β : Type} {x : Except ε α} {f : α → Except ε β} {b : β} :
    (x >>= f) = .ok b ↔ ∃ a, x = .ok a ∧ f a = .ok b := by
  cases x with
  | error e =>
    constructor
    · intro h
      cases h
    · rintro ⟨_, h, _⟩
      cases h
  | ok a =>
    constructor
    · intro h
      exact ⟨a, rfl, h⟩
    · rintro ⟨_, h, h'⟩
      cases h
      exact h'

namespace Scan

/-! ### Trivia -/

/-- The scanner does not find the start of trivia here. -/
def startsTrivia : List Char → Bool
  | '/' :: '/' :: _ => true
  | '/' :: '*' :: _ => true
  | c :: _ => isBlank c
  | [] => false

/-- Trivia read from a given state that is closed again at its end: no comment stays open. -/
inductive Closed : TriviaState → List Char → Prop
  | done : Closed .between []
  | blank {c : Char} {cs : List Char} : isBlank c = true → Closed .between cs →
      Closed .between (c :: cs)
  | line {cs : List Char} : Closed .lineComment cs → Closed .between ('/' :: '/' :: cs)
  | block {cs : List Char} : (∀ start, Closed (.blockComment start) cs) →
      Closed .between ('/' :: '*' :: cs)
  | lineEnd {cs : List Char} : Closed .between cs → Closed .lineComment ('\n' :: cs)
  | inLine {c : Char} {cs : List Char} : c ≠ '\n' → Closed .lineComment cs →
      Closed .lineComment (c :: cs)
  | blockEnd {start : Nat} {cs : List Char} : Closed .between cs →
      Closed (.blockComment start) ('*' :: '/' :: cs)
  | inBlock {start : Nat} {c : Char} {cs : List Char} : (c = '*' → cs.head? ≠ some '/') →
      Closed (.blockComment start) cs → Closed (.blockComment start) (c :: cs)

/-- Text that is trivia and in which no comment stays open. -/
def isClosed (t : Trivia) : Prop := Closed .between t.toList

theorem isClosed_empty : isClosed "" := Closed.done

theorem Closed.append {st : TriviaState} {a b : List Char} (ha : Closed st a)
    (hb : Closed .between b) : Closed st (a ++ b) := by
  induction ha with
  | done => exact hb
  | blank hc _ ih => exact .blank hc ih
  | line _ ih => exact .line ih
  | block _ ih => exact .block ih
  | lineEnd _ ih => exact .lineEnd ih
  | inLine hc _ ih => exact .inLine hc ih
  | blockEnd _ ih => exact .blockEnd ih
  | @inBlock start c cs hc h ih =>
    refine .inBlock (fun h0 => ?_) ih
    cases cs with
    | nil => cases h
    | cons d ds => exact hc h0

/-- Where a block comment was opened does not matter for how it is closed. -/
theorem Closed.reopen {st : TriviaState} {cs : List Char} (h : Closed st cs) (start : Nat) :
    ∀ old, st = .blockComment old → Closed (.blockComment start) cs := by
  induction h with
  | done => intro _ h; cases h
  | blank _ _ _ => intro _ h; cases h
  | line _ _ => intro _ h; cases h
  | block _ _ => intro _ h; cases h
  | lineEnd _ _ => intro _ h; cases h
  | inLine _ _ _ => intro _ h; cases h
  | blockEnd h _ => intro _ _; exact .blockEnd h
  | inBlock hc _ ih => intro _ _; exact .inBlock hc (ih _ rfl)

theorem trivia_of_not_startsTrivia {cs : List Char} (h : startsTrivia cs = false) (hne : cs ≠ [])
    (offset : Nat) : trivia .between offset cs = .ok ([], cs) := by
  cases cs with
  | nil => exact absurd rfl hne
  | cons c rest =>
    have hline : ∀ r, c = '/' → rest = '/' :: r → False := by
      rintro r rfl rfl
      simp [startsTrivia] at h
    have hblock : ∀ r, c = '/' → rest = '*' :: r → False := by
      rintro r rfl rfl
      simp [startsTrivia] at h
    have hblank : isBlank c = false := by
      rw [startsTrivia] at h
      · exact h
      · exact hline
      · exact hblock
    rw [trivia.eq_3 _ _ _ hline hblock, hblank]
    rfl

/-- **Closed trivia is taken whole**, when no more trivia follows it. -/
theorem trivia_append_of_closed {st : TriviaState} {cs r : List Char} (h : Closed st cs)
    (hr : startsTrivia r = false) (hne : r ≠ []) :
    ∀ offset, trivia st offset (cs ++ r) = .ok (cs, r) := by
  induction h with
  | done => exact trivia_of_not_startsTrivia hr hne
  | @blank c cs hc _ ih =>
    intro offset
    have hslash : c ≠ '/' := by rintro rfl; revert hc; decide
    rw [List.cons_append, trivia.eq_3 _ _ _ (fun _ h => absurd h hslash)
      (fun _ h => absurd h hslash), if_pos hc, ih]
    rfl
  | line _ ih =>
    intro offset
    rw [List.cons_append, List.cons_append, trivia.eq_1, ih]
    rfl
  | block _ ih =>
    intro offset
    rw [List.cons_append, List.cons_append, trivia.eq_2, ih]
    rfl
  | lineEnd _ ih =>
    intro offset
    rw [List.cons_append, trivia.eq_4, if_pos (by rfl), ih]
    rfl
  | @inLine c cs hc _ ih =>
    intro offset
    rw [List.cons_append, trivia.eq_4, if_neg (by simpa using hc), ih]
    rfl
  | blockEnd _ ih =>
    intro offset
    rw [List.cons_append, List.cons_append, trivia.eq_5, ih]
    rfl
  | @inBlock start c cs hc hcs ih =>
    intro offset
    have hgo : ∀ t, c = '*' → cs ++ r = '/' :: t → False := by
      intro t h0 ht
      cases cs with
      | nil => cases hcs
      | cons d ds =>
        rw [List.cons_append, List.cons.injEq] at ht
        exact hc h0 (by rw [ht.1]; rfl)
    rw [List.cons_append, trivia.eq_6 _ _ _ _ hgo, ih]
    rfl

/-- What the scanner takes as trivia from the front of a text: nothing is lost, what follows is no
trivia any more, and the trivia is closed unless the text ends with it. -/
theorem trivia_eq_ok {st : TriviaState} {offset : Nat} {cs t r : List Char}
    (h : trivia st offset cs = .ok (t, r)) :
    cs = t ++ r ∧ startsTrivia r = false ∧ (r ≠ [] → Closed st t) := by
  fun_induction trivia st offset cs generalizing t r with
  | case1 offset rest ih =>
    obtain ⟨⟨t', r'⟩, h1, h2⟩ := bind_eq_ok.mp h
    cases h2
    obtain ⟨hcs, hr, hcl⟩ := ih h1
    exact ⟨by rw [hcs]; rfl, hr, fun hne => .line (hcl hne)⟩
  | case2 offset rest ih =>
    obtain ⟨⟨t', r'⟩, h1, h2⟩ := bind_eq_ok.mp h
    cases h2
    obtain ⟨hcs, hr, hcl⟩ := ih h1
    exact ⟨by rw [hcs]; rfl, hr, fun hne => .block fun start => (hcl hne).reopen start _ rfl⟩
  | case3 offset c rest _ _ hb ih =>
    obtain ⟨⟨t', r'⟩, h1, h2⟩ := bind_eq_ok.mp h
    cases h2
    obtain ⟨hcs, hr, hcl⟩ := ih h1
    exact ⟨by rw [hcs]; rfl, hr, fun hne => .blank hb (hcl hne)⟩
  | case4 offset c rest hline hblock hb =>
    cases h
    refine ⟨rfl, ?_, fun _ => .done⟩
    rw [startsTrivia]
    · simpa using hb
    · exact hline
    · exact hblock
  | case5 offset c rest ih =>
    obtain ⟨⟨t', r'⟩, h1, h2⟩ := bind_eq_ok.mp h
    cases h2
    obtain ⟨hcs, hr, hcl⟩ := ih h1
    refine ⟨by rw [hcs]; rfl, hr, fun hne => ?_⟩
    by_cases hc : c = '\n'
    · subst hc
      exact .lineEnd (hcl hne)
    · rw [if_neg (by simpa using hc)] at hcl
      exact .inLine hc (hcl hne)
  | case6 start offset rest ih =>
    obtain ⟨⟨t', r'⟩, h1, h2⟩ := bind_eq_ok.mp h
    cases h2
    obtain ⟨hcs, hr, hcl⟩ := ih h1
    exact ⟨by rw [hcs]; rfl, hr, fun hne => .blockEnd (hcl hne)⟩
  | case7 start offset c rest hgo ih =>
    obtain ⟨⟨t', r'⟩, h1, h2⟩ := bind_eq_ok.mp h
    cases h2
    obtain ⟨hcs, hr, hcl⟩ := ih h1
    refine ⟨by rw [hcs]; rfl, hr, fun hne => .inBlock (fun h0 h1 => ?_) (hcl hne)⟩
    cases t' with
    | nil => cases h1
    | cons d ds =>
      cases h1
      exact hgo (ds ++ r) h0 hcs
  | case8 start offset => cases h
  | case9 st offset _ =>
    cases h
    exact ⟨rfl, rfl, fun hne => absurd rfl hne⟩

/-- Two states that differ at most in where a comment was opened. -/
def TriviaState.same : TriviaState → TriviaState → Prop
  | .blockComment _, .blockComment _ => True
  | st, st' => st = st'

theorem TriviaState.same_refl (st : TriviaState) : st.same st := by
  cases st <;> simp [TriviaState.same]

theorem TriviaState.same_block (a b : Nat) : (blockComment a).same (blockComment b) := trivial

/-- Where trivia stands does not matter for reading it. -/
theorem trivia_offset {st : TriviaState} {offset : Nat} {cs : List Char}
    {x : List Char × List Char} (h : trivia st offset cs = .ok x) :
    ∀ st' offset', st.same st' → trivia st' offset' cs = .ok x := by
  fun_induction trivia st offset cs generalizing x with
  | case1 offset rest ih =>
    intro st' offset' hst
    obtain ⟨y, h1, h2⟩ := bind_eq_ok.mp h
    cases st' <;> cases hst
    rw [trivia.eq_1, ih h1 _ _ (TriviaState.same_refl _)]
    exact h2
  | case2 offset rest ih =>
    intro st' offset' hst
    obtain ⟨y, h1, h2⟩ := bind_eq_ok.mp h
    cases st' <;> cases hst
    rw [trivia.eq_2, ih h1 _ _ (TriviaState.same_block _ _)]
    exact h2
  | case3 offset c rest hline hblock hb ih =>
    intro st' offset' hst
    obtain ⟨y, h1, h2⟩ := bind_eq_ok.mp h
    cases st' <;> cases hst
    rw [trivia.eq_3 _ _ _ hline hblock, if_pos hb, ih h1 _ _ (TriviaState.same_refl _)]
    exact h2
  | case4 offset c rest hline hblock hb =>
    intro st' offset' hst
    cases st' <;> cases hst
    rw [trivia.eq_3 _ _ _ hline hblock, if_neg hb]
    exact h
  | case5 offset c rest ih =>
    intro st' offset' hst
    obtain ⟨y, h1, h2⟩ := bind_eq_ok.mp h
    cases st' <;> cases hst
    rw [trivia.eq_4, ih h1 _ _ (TriviaState.same_refl _)]
    exact h2
  | case6 start offset rest ih =>
    intro st' offset' hst
    obtain ⟨y, h1, h2⟩ := bind_eq_ok.mp h
    cases st' with
    | between => cases hst
    | lineComment => cases hst
    | blockComment start' =>
      rw [trivia.eq_5, ih h1 _ _ (TriviaState.same_refl _)]
      exact h2
  | case7 start offset c rest hgo ih =>
    intro st' offset' hst
    obtain ⟨y, h1, h2⟩ := bind_eq_ok.mp h
    cases st' with
    | between => cases hst
    | lineComment => cases hst
    | blockComment start' =>
      rw [trivia.eq_6 _ _ _ _ hgo, ih h1 _ _ (TriviaState.same_block _ _)]
      exact h2
  | case8 start offset => cases h
  | case9 st offset hst0 =>
    intro st' offset' hst
    rw [trivia.eq_8]
    · exact h
    · rintro start rfl
      cases st with
      | blockComment s => exact hst0 s rfl
      | between => cases hst
      | lineComment => cases hst

/-! ### Lexemes -/

/-- The characters of a word. -/
def isWordText (cs : List Char) : Bool := startsWord cs && (cs.drop 1).all isWordPart

/-- The characters of a number. -/
def isNumberText : List Char → Bool
  | c :: cs => c.isDigit && cs.all isNumberPart
  | [] => false

/-- The characters of a literal between quotes. -/
def isQuotedText (quote : Char) : List Char → Bool
  | c :: cs => c == quote && quotedRest quote cs == some (cs, [])
  | [] => false

/-- The characters of a token of some kind. -/
def isLexeme : TokenKind → List Char → Bool
  | .word, cs => isWordText cs
  | .number, cs => isNumberText cs
  | .string, cs => isQuotedText '"' cs
  | .character, cs => isQuotedText '\'' cs
  | .symbol, cs => symbols.contains (String.ofList cs)
  | .eof, _ => false

theorem quotedRest_eq_some {quote : Char} {cs body r : List Char}
    (h : quotedRest quote cs = some (body, r)) :
    cs = body ++ r ∧ ∀ r', quotedRest quote (body ++ r') = some (body, r') := by
  fun_induction quotedRest quote cs generalizing body r with
  | case1 => cases h
  | case2 c rest ih =>
    obtain ⟨⟨body', r'⟩, h1, h2⟩ := Option.map_eq_some_iff.mp h
    cases h2
    obtain ⟨hcs, happ⟩ := ih h1
    refine ⟨by rw [hcs]; rfl, fun r' => ?_⟩
    rw [List.cons_append, List.cons_append, quotedRest.eq_2, happ]
    rfl
  | case3 c rest _ hbad => cases h
  | case4 c rest hesc hbad hq =>
    cases h
    refine ⟨rfl, fun r' => ?_⟩
    have hc : c ≠ '\\' := by rintro rfl; simp at hbad
    rw [List.cons_append, quotedRest.eq_3 _ _ _ (fun _ _ h => absurd h hc), if_neg hbad, if_pos hq]
    rfl
  | case5 c rest hesc hbad hq ih =>
    obtain ⟨⟨body', r'⟩, h1, h2⟩ := Option.map_eq_some_iff.mp h
    cases h2
    obtain ⟨hcs, happ⟩ := ih h1
    refine ⟨by rw [hcs]; rfl, fun r' => ?_⟩
    have hc : c ≠ '\\' := by rintro rfl; simp at hbad
    rw [List.cons_append, quotedRest.eq_3 _ _ _ (fun _ _ h => absurd h hc), if_neg hbad, if_neg hq,
      happ]
    rfl

/-- The lexeme that starts with `c`: by the first character it is a word, a number, a quoted literal
or a symbol. -/
inductive Lexed (c : Char) (rest : List Char) : TokenKind → List Char → List Char → Prop
  | word : startsWord (c :: rest) = true →
      Lexed c rest .word (c :: rest.takeWhile isWordPart) (rest.dropWhile isWordPart)
  | number : c.isDigit = true →
      Lexed c rest .number (c :: rest.takeWhile isNumberPart) (rest.dropWhile isNumberPart)
  | string {body r : List Char} : c = '"' → quotedRest c rest = some (body, r) →
      Lexed c rest .string (c :: body) r
  | character {body r : List Char} : c = '\'' → quotedRest c rest = some (body, r) →
      Lexed c rest .character (c :: body) r
  | symbol {text r : List Char} : startsWord (c :: rest) = false → c.isDigit = false → c ≠ '"' →
      c ≠ '\'' → symbol? (c :: rest) = some (text, r) → Lexed c rest .symbol text r

theorem startsWord_cons {c : Char} (rest : List Char) (h : c ≠ '@') :
    startsWord (c :: rest) = isWordStart c := by
  rw [startsWord]
  intro d r h'
  exact absurd h' h

theorem isAlpha_of_isDigit {c : Char} (h : c.isDigit = true) : c.isAlpha = false := by
  have hc : c.val ≤ '9'.val := of_decide_eq_true (Bool.and_eq_true_iff.mp h).2
  have hupper : c.isUpper = false :=
    decide_eq_false fun h => absurd (UInt32.le_trans h.1 hc) (by decide)
  have hlower : c.isLower = false :=
    Bool.and_eq_false_iff.mpr (.inl (decide_eq_false fun h => absurd (UInt32.le_trans h hc) (by decide)))
  exact Bool.or_eq_false_iff.mpr ⟨hupper, hlower⟩

theorem startsWord_of_isDigit {c : Char} (rest : List Char) (h : c.isDigit = true) :
    startsWord (c :: rest) = false := by
  have hat : c ≠ '@' := by rintro rfl; revert h; decide
  have hlow : c ≠ '_' := by rintro rfl; revert h; decide
  have hdollar : c ≠ '$' := by rintro rfl; revert h; decide
  simp [startsWord_cons rest hat, isWordStart, isAlpha_of_isDigit h, hlow, hdollar]

/-- **One lexeme.** The scanner finds exactly what `Lexed` says, wherever it stands. -/
theorem lexeme_eq_ok {offset : Nat} {c : Char} {rest text r : List Char} {kind : TokenKind} :
    lexeme offset c rest = .ok (kind, text, r) ↔ Lexed c rest kind text r := by
  constructor
  · intro h
    unfold lexeme at h
    split at h
    · next hw => cases h; exact .word hw
    · next hw =>
      split at h
      · next hd => cases h; exact .number hd
      · next hd =>
        split at h
        · next hs =>
          split at h
          · next heq => cases h; exact .string (by simpa using hs) heq
          · cases h
        · next hs =>
          split at h
          · next hs' =>
            split at h
            · next heq => cases h; exact .character (by simpa using hs') heq
            · cases h
          · next hs' =>
            split at h
            · next heq =>
              cases h
              exact .symbol (by simpa using hw) (by simpa using hd) (by simpa using hs)
                (by simpa using hs') heq
            · cases h
  · intro h
    unfold lexeme
    cases h with
    | word hw => rw [if_pos hw]
    | number hd => rw [startsWord_of_isDigit rest hd, if_neg (by decide), if_pos hd]
    | string hc hq =>
      subst hc
      rw [startsWord_cons rest (by decide), if_neg (by decide), if_neg (by decide),
        if_pos (by decide), hq]
    | character hc hq =>
      subst hc
      rw [startsWord_cons rest (by decide), if_neg (by decide), if_neg (by decide),
        if_neg (by decide), if_pos (by decide), hq]
    | symbol hw hd hs hs' hq =>
      rw [if_neg (by simp [hw]), if_neg (by simp [hd]), if_neg (by simpa using hs),
        if_neg (by simpa using hs'), hq]

theorem symbol?_eq_some {cs text r : List Char} (h : symbol? cs = some (text, r)) :
    cs = text ++ r ∧ symbols.contains (String.ofList text) = true := by
  obtain ⟨s, hs, heq⟩ := Option.map_eq_some_iff.mp h
  cases heq
  have hpre := List.find?_some hs
  have hmem := List.mem_of_find?_eq_some hs
  obtain ⟨t, ht⟩ := List.isPrefixOf_iff_prefix.mp hpre
  refine ⟨?_, by rw [String.ofList_toList]; exact List.contains_iff_mem.mpr hmem⟩
  rw [← ht, List.drop_left]

theorem isWordPart_of_isWordStart {c : Char} (h : isWordStart c = true) : isWordPart c = true := by
  grind [isWordStart, isWordPart, Char.isAlphanum]

/-- Whether a word starts is seen from the characters that the word takes. -/
theorem startsWord_takeWhile {c : Char} {rest : List Char} (h : startsWord (c :: rest) = true) :
    startsWord (c :: rest.takeWhile isWordPart) = true := by
  by_cases hc : c = '@'
  · subst hc
    cases rest with
    | nil => exact h
    | cons d ds =>
      rw [startsWord] at h
      rw [List.takeWhile_cons, if_pos (isWordPart_of_isWordStart h), startsWord]
      exact h
  · rw [startsWord_cons _ hc] at h ⊢
    exact h

/-- Nothing is lost in reading a lexeme, and its text is one of the kind. -/
theorem Lexed.eq_append {c : Char} {rest text r : List Char} {kind : TokenKind}
    (h : Lexed c rest kind text r) : c :: rest = text ++ r ∧ isLexeme kind text = true := by
  cases h with
  | word hw =>
    refine ⟨by rw [List.cons_append, List.takeWhile_append_dropWhile], ?_⟩
    simp only [isLexeme, isWordText, List.drop_succ_cons, List.drop_zero, Bool.and_eq_true,
      List.all_takeWhile, and_true]
    exact startsWord_takeWhile hw
  | number hd =>
    refine ⟨by rw [List.cons_append, List.takeWhile_append_dropWhile], ?_⟩
    simp [isLexeme, isNumberText, hd]
  | string hc hq =>
    obtain ⟨hrest, happ⟩ := quotedRest_eq_some hq
    subst hc
    have hself := happ []
    rw [List.append_nil] at hself
    exact ⟨by rw [hrest]; rfl, by simp [isLexeme, isQuotedText, hself]⟩
  | character hc hq =>
    obtain ⟨hrest, happ⟩ := quotedRest_eq_some hq
    subst hc
    have hself := happ []
    rw [List.append_nil] at hself
    exact ⟨by rw [hrest]; rfl, by simp [isLexeme, isQuotedText, hself]⟩
  | symbol _ _ _ _ hq => exact symbol?_eq_some hq

/-- In front of `next` the scanner finds a token of the given kind and text, and stops there. -/
structure Cuts (kind : TokenKind) (text next : List Char) : Prop where
  no_trivia : startsTrivia (text ++ next) = false
  lexed : ∃ c cs, text = c :: cs ∧ Lexed c (cs ++ next) kind text next

theorem isLexeme_ne_nil {kind : TokenKind} {text : List Char} (h : isLexeme kind text = true) :
    text ≠ [] := by
  rintro rfl
  cases kind <;> revert h <;> decide

theorem Lexed.cuts {c : Char} {rest text r : List Char} {kind : TokenKind}
    (h : Lexed c rest kind text r) (ht : startsTrivia (c :: rest) = false) : Cuts kind text r := by
  obtain ⟨happ, hlex⟩ := h.eq_append
  cases text with
  | nil => exact absurd rfl (isLexeme_ne_nil hlex)
  | cons d ds =>
    rw [List.cons_append, List.cons.injEq] at happ
    obtain ⟨rfl, rfl⟩ := happ
    exact ⟨ht, c, ds, rfl, h⟩

theorem Cuts.isLexeme {kind : TokenKind} {text next : List Char} (h : Cuts kind text next) :
    isLexeme kind text = true := by
  obtain ⟨_, _, _, hl⟩ := h.lexed
  exact hl.eq_append.2

/-! ### Rows of tokens -/

/-- The row is what the scanner finds in its text, `tail` being the trivia at the end. -/
def Scannable : List Token → List Char → Prop
  | [], tail => ∀ offset, trivia .between offset tail = .ok (tail, [])
  | t :: ts, tail =>
    isClosed t.lead ∧ Cuts t.kind t.text.toList (spell ts ++ tail) ∧ Scannable ts tail

/-- **The tokens of a text are scannable and spell it**, when there are rounds enough. -/
theorem scannable_of_tokensUpTo {n offset : Nat} {cs : List Char} {ts : Tokens}
    (h : tokensUpTo n offset cs = .ok ts) (hn : cs.length < n) :
    cs = spell ts.words ++ ts.eof.lead.toList ∧ Scannable ts.words ts.eof.lead.toList ∧
      ts.eof.kind = .eof ∧ ts.eof.text = "" := by
  induction n generalizing offset cs ts with
  | zero => omega
  | succ n ih =>
    rw [tokensUpTo] at h
    obtain ⟨⟨lead, rest⟩, h1, h2⟩ := bind_eq_ok.mp h
    obtain ⟨hcs, hstart, hclosed⟩ := trivia_eq_ok h1
    cases rest with
    | nil =>
      cases h2
      rw [List.append_nil] at hcs
      subst hcs
      refine ⟨by simp, ?_, rfl, rfl⟩
      intro off
      rw [String.toList_ofList]
      exact trivia_offset h1 _ _ rfl
    | cons c rest =>
      obtain ⟨⟨kind, text, r⟩, h3, h4⟩ := bind_eq_ok.mp h2
      obtain ⟨ts', h5, h6⟩ := bind_eq_ok.mp h4
      cases h6
      have hlexed := lexeme_eq_ok.mp h3
      have hcut := hlexed.cuts hstart
      obtain ⟨happ, hlex⟩ := hlexed.eq_append
      have hpos := List.length_pos_iff.mpr (isLexeme_ne_nil hlex)
      have hlen : r.length < n := by
        have := congrArg List.length hcs
        rw [List.length_append, happ, List.length_append] at this
        omega
      obtain ⟨hr, hscan, heof⟩ := ih h5 hlen
      refine ⟨?_, ⟨?_, ?_, hscan⟩, heof⟩
      · simp only [Tokens.cons, spell_cons, String.toList_ofList, List.append_assoc]
        rw [← hr, hcs, happ]
      · simpa [isClosed] using hclosed (by simp)
      · show Cuts kind (String.ofList text).toList (spell ts'.words ++ ts'.eof.lead.toList)
        rw [← hr, String.toList_ofList]
        exact hcut

/-- **A scannable row is found again in its own text.** -/
theorem tokensUpTo_spell {ts : List Token} {tail : List Char} (h : Scannable ts tail) :
    ∀ n offset, (spell ts ++ tail).length < n → ∃ ts' : Tokens,
      tokensUpTo n offset (spell ts ++ tail) = .ok ts' ∧
      ts'.words.map Token.unplaced = ts.map Token.unplaced ∧
      ts'.eof.unplaced = ⟨.eof, String.ofList tail, "", 0⟩ := by
  induction ts with
  | nil =>
    intro n offset hn
    cases n with
    | zero => omega
    | succ n =>
      refine ⟨⟨[], ⟨.eof, String.ofList tail, "", offset + byteLength tail⟩⟩, ?_, rfl, rfl⟩
      rw [tokensUpTo, spell_nil, List.nil_append, h offset]
      rfl
  | cons t ts ih =>
    intro n offset hn
    obtain ⟨hlead, hcut, hrest⟩ := h
    obtain ⟨c, cs, htext, hlexed⟩ := hcut.lexed
    cases n with
    | zero => omega
    | succ n =>
      rw [spell_cons, List.append_assoc, List.append_assoc] at hn ⊢
      have htrivia := trivia_append_of_closed hlead hcut.no_trivia (by rw [htext]; simp) offset
      rw [htext, List.cons_append] at htrivia
      rw [htext] at hlexed
      have hlen : (spell ts ++ tail).length < n := by
        rw [htext] at hn
        simp only [List.length_append, List.length_cons] at hn ⊢
        omega
      obtain ⟨ts', h1, h2, h3⟩ :=
        ih hrest n (offset + byteLength t.lead.toList + byteLength t.text.toList) hlen
      refine ⟨ts'.cons ⟨t.kind, t.lead, t.text, offset + byteLength t.lead.toList⟩, ?_, ?_, h3⟩
      · rw [tokensUpTo, htext, List.cons_append]
        refine bind_eq_ok.mpr ⟨_, htrivia, ?_⟩
        refine bind_eq_ok.mpr ⟨_, lexeme_eq_ok.mpr hlexed, ?_⟩
        refine bind_eq_ok.mpr ⟨ts', by rw [← htext]; exact h1, ?_⟩
        rw [← htext, String.ofList_toList, String.ofList_toList]
        rfl
      · rw [Tokens.cons, List.map_cons, h2]
        rfl

end Scan

end Migration
