import Mathlib.Data.List.Basic
import Migration.Proofs.Token.Scanning

/-!
# Where tokens are cut

The scanner ends a token by looking at one character behind it. What stands there may therefore be
exchanged for a text that starts alike (`Cuts.alike`): with the same character, or with a word in
the place of another word. Only a number is more particular, since it takes letters but no `$`.

A word ends in front of anything that cannot continue it (`cuts_word`), and a dot or a semicolon in
front of any text at all.
-/

namespace Migration.Scan

/-! ### Words and numbers -/

theorem takeWhile_append_iff {p : Char → Bool} {cs next : List Char} :
    (cs ++ next).takeWhile p = cs ↔ cs.all p = true ∧ ∀ c ∈ next.head?, p c = false := by
  constructor
  · intro h
    have hall : cs.all p = true := by
      rw [← h]
      exact List.all_takeWhile
    refine ⟨hall, fun c hc => ?_⟩
    rw [List.takeWhile_append_of_pos (List.all_eq_true.mp hall), List.append_right_eq_self] at h
    cases next with
    | nil => cases hc
    | cons d next =>
      cases hc
      rw [Bool.eq_false_iff]
      intro hp
      rw [List.takeWhile_cons_of_pos hp] at h
      cases h
  · rintro ⟨hall, hend⟩
    rw [List.takeWhile_append_of_pos (List.all_eq_true.mp hall), List.append_right_eq_self]
    cases next with
    | nil => rfl
    | cons d next => exact List.takeWhile_cons_of_neg (by simp [hend d rfl])

theorem dropWhile_append_of_end {p : Char → Bool} {cs next : List Char} (hall : cs.all p = true)
    (hend : ∀ c ∈ next.head?, p c = false) : (cs ++ next).dropWhile p = next := by
  have hsplit := List.takeWhile_append_dropWhile (p := p) (l := cs ++ next)
  rw [takeWhile_append_iff.mpr ⟨hall, hend⟩] at hsplit
  exact List.append_cancel_left hsplit

/-- What is true of no blank is true of nothing that a token starts with. -/
theorem isBlank_eq_false {p : Char → Bool} {c : Char} (h : p c = true)
    (hp : [' ', '\t', '\n', '\x0c', '\r'].any p = false) : isBlank c = false := by
  rw [Bool.eq_false_iff]
  intro hblank
  have hmem : c ∈ [' ', '\t', '\n', '\x0c', '\r'] := by
    simpa [isBlank, or_assoc] using hblank
  exact List.any_eq_false.mp hp c hmem h

theorem startsTrivia_cons {c : Char} {rest : List Char} (hc : c ≠ '/') :
    startsTrivia (c :: rest) = isBlank c := by
  rw [startsTrivia]
  · exact fun _ h => absurd h hc
  · exact fun _ h => absurd h hc

/-- What a word starts with. -/
theorem first_of_isWordText {text : List Char} (h : isWordText text = true) :
    ∃ c cs, text = c :: cs ∧ (isWordStart c || c == '@') = true ∧ cs.all isWordPart = true := by
  rw [isWordText, Bool.and_eq_true] at h
  cases text with
  | nil => exact absurd h.1 (by decide)
  | cons c cs =>
    refine ⟨c, cs, rfl, ?_, h.2⟩
    by_cases hc : c = '@'
    · simp [hc]
    · rw [startsWord_cons cs hc] at h
      simp [h.1]

/-- **A word ends in front of what cannot continue it.** -/
theorem cuts_word {text next : List Char} (h : isWordText text = true)
    (hend : ∀ c ∈ next.head?, isWordPart c = false) : Cuts .word text next := by
  obtain ⟨c, cs, rfl, hc, hall⟩ := first_of_isWordText h
  have hslash : c ≠ '/' := by
    rintro rfl
    revert hc
    decide
  have hstart : startsWord (c :: (cs ++ next)) = true := by
    have hself := (Bool.and_eq_true_iff.mp h).1
    by_cases hat : c = '@'
    · subst hat
      cases cs with
      | nil => exact absurd hself (by decide)
      | cons d ds => exact hself
    · rw [startsWord_cons _ hat] at hself ⊢
      exact hself
  refine ⟨?_, c, cs, rfl, ?_⟩
  · rw [List.cons_append, startsTrivia_cons hslash]
    exact isBlank_eq_false (p := fun c => isWordStart c || c == '@') hc (by decide)
  · have hlexed := Lexed.word hstart
    rw [takeWhile_append_iff.mpr ⟨hall, hend⟩, dropWhile_append_of_end hall hend] at hlexed
    exact hlexed

theorem Lexed.word_text {c : Char} {rest text r : List Char} (h : Lexed c rest .word text r) :
    text = c :: rest.takeWhile isWordPart := by
  cases h
  rfl

theorem Lexed.number_text {c : Char} {rest text r : List Char} (h : Lexed c rest .number text r) :
    text = c :: rest.takeWhile isNumberPart := by
  cases h
  rfl

theorem Cuts.word_end {text next : List Char} (h : Cuts .word text next) :
    ∀ c ∈ next.head?, isWordPart c = false := by
  obtain ⟨c, cs, rfl, hlexed⟩ := h.lexed
  have hcs := (List.cons.inj hlexed.word_text).2
  exact (takeWhile_append_iff.mp hcs.symm).2

theorem Cuts.number_end {text next : List Char} (h : Cuts .number text next) :
    ∀ c ∈ next.head?, isNumberPart c = false := by
  obtain ⟨c, cs, rfl, hlexed⟩ := h.lexed
  have hcs := (List.cons.inj hlexed.number_text).2
  exact (takeWhile_append_iff.mp hcs.symm).2

theorem cuts_number {text next : List Char} (h : isNumberText text = true)
    (hend : ∀ c ∈ next.head?, isNumberPart c = false) : Cuts .number text next := by
  cases text with
  | nil => cases h
  | cons c cs =>
    rw [isNumberText, Bool.and_eq_true] at h
    have hslash : c ≠ '/' := by
      rintro rfl
      exact absurd h.1 (by decide)
    refine ⟨?_, c, cs, rfl, ?_⟩
    · rw [List.cons_append, startsTrivia_cons hslash]
      exact isBlank_eq_false h.1 (by decide)
    · have hlexed : Lexed c (cs ++ next) .number _ _ := .number h.1
      rw [takeWhile_append_iff.mpr ⟨h.2, hend⟩, dropWhile_append_of_end h.2 hend] at hlexed
      exact hlexed

/-! ### Quoted literals -/

theorem Lexed.quoted {c : Char} {cs next : List Char} {kind : TokenKind}
    (hkind : kind = .string ∨ kind = .character) (h : Lexed c (cs ++ next) kind (c :: cs) next)
    (next' : List Char) : Lexed c (cs ++ next') kind (c :: cs) next' := by
  generalize hrest : cs ++ next = rest at h
  generalize htext : c :: cs = text at h
  cases h with
  | word _ => rcases hkind with h | h <;> cases h
  | number _ => rcases hkind with h | h <;> cases h
  | symbol _ _ _ _ _ => rcases hkind with h | h <;> cases h
  | string hc hq =>
    cases htext
    exact .string hc ((quotedRest_eq_some hq).2 next')
  | character hc hq =>
    cases htext
    exact .character hc ((quotedRest_eq_some hq).2 next')

/-! ### Symbols -/

/-- A symbol has one character or two, no word or literal starts with the first, and no word with
the second. -/
theorem symbol_shape {s : String} (h : s ∈ symbols) :
    (∃ a, s.toList = [a]) ∨ ∃ a b, s.toList = [a, b] ∧ isWordStart b = false := by
  have hall : ∀ s ∈ symbols,
      s.toList.length = 1 ∨ s.toList.length = 2 ∧ s.toList.tail.any isWordStart = false := by
    decide
  rcases hall s h with hone | ⟨htwo, hb⟩
  · exact .inl (List.length_eq_one_iff.mp hone)
  · obtain ⟨a, b, hab⟩ := List.length_eq_two.mp htwo
    rw [hab] at hb
    exact .inr ⟨a, b, hab, by simpa using hb⟩

theorem symbol_ne_at {s : String} (h : s ∈ symbols) (cs : List Char) :
    s ≠ String.ofList ('@' :: cs) := by
  have hall : ∀ s ∈ symbols, s.toList.head? ≠ some '@' := by decide
  rintro rfl
  have hs := hall _ h
  rw [String.toList_ofList] at hs
  exact hs rfl

theorem Lexed.symbol_inv {c : Char} {rest text r : List Char} (h : Lexed c rest .symbol text r) :
    startsWord (c :: rest) = false ∧ c.isDigit = false ∧ c ≠ '"' ∧ c ≠ '\''
      ∧ symbol? (c :: rest) = some (text, r) := by
  cases h with
  | symbol hw hd hs hs' hq => exact ⟨hw, hd, hs, hs', hq⟩

/-- A semicolon and a dot end in front of any text. -/
theorem cuts_mark {c : Char} (hc : c = ';' ∨ c = '.') (next : List Char) :
    Cuts .symbol [c] next := by
  rcases hc with rfl | rfl
  · exact ⟨rfl, _, _, rfl, .symbol rfl rfl (by decide) (by decide) rfl⟩
  · exact ⟨rfl, _, _, rfl, .symbol rfl rfl (by decide) (by decide) rfl⟩

/-! ### Texts that start alike -/

/-- The text starts with a word. -/
def WordAhead (next : List Char) : Prop := ∃ c ∈ next.head?, isWordStart c = true

/-- The texts start with the same character, or both with a word if `words` allows that. -/
def Alike (words : Bool) (next next' : List Char) : Prop :=
  next.head? = next'.head? ∨ words = true ∧ WordAhead next ∧ WordAhead next'

theorem Alike.refl (words : Bool) (next : List Char) : Alike words next next := .inl rfl

theorem Alike.symm {words : Bool} {next next' : List Char} (h : Alike words next next') :
    Alike words next' next := by
  rcases h with h | ⟨hw, ha, hb⟩
  · exact .inl h.symm
  · exact .inr ⟨hw, hb, ha⟩

theorem Alike.append {words : Bool} {next next' : List Char} (cs : List Char)
    (h : Alike words next next') : Alike words (cs ++ next) (cs ++ next') := by
  cases cs with
  | nil => exact h
  | cons c cs => exact .inl rfl

/-- What ends in front of one of the texts ends in front of the other. -/
theorem Alike.end_of {words : Bool} {next next' : List Char} (h : Alike words next next')
    {p : Char → Bool} (hp : words = true → ∀ c, isWordStart c = true → p c = true)
    (hend : ∀ c ∈ next.head?, p c = false) : ∀ c ∈ next'.head?, p c = false := by
  rcases h with h | ⟨hwords, ⟨d, hd, hstart⟩, _⟩
  · rw [← h]
    exact hend
  · have hpd := hp hwords d hstart
    rw [hend d hd] at hpd
    cases hpd

theorem isPrefixOf_alike {words : Bool} {next next' : List Char} (h : Alike words next next')
    {s : String} (hs : s ∈ symbols) (c : Char) (cs : List Char) :
    s.toList.isPrefixOf (c :: (cs ++ next)) = s.toList.isPrefixOf (c :: (cs ++ next')) := by
  rcases symbol_shape hs with ⟨a, ha⟩ | ⟨a, b, hab, hb⟩
  · rw [ha]
    rfl
  · rw [hab, List.isPrefixOf_cons_cons, List.isPrefixOf_cons_cons]
    cases cs with
    | cons d ds => rfl
    | nil =>
      rcases h with h | ⟨_, ⟨d, hd, hstart⟩, ⟨d', hd', hstart'⟩⟩
      · cases next <;> cases next' <;> cases h <;> rfl
      · have hne {x : Char} (hx : isWordStart x = true) : b ≠ x := by
          rintro rfl
          rw [hb] at hx
          cases hx
        cases next <;> cases hd
        cases next' <;> cases hd'
        rw [List.nil_append, List.nil_append, List.isPrefixOf_cons_cons, List.isPrefixOf_cons_cons,
          beq_false_of_ne (hne hstart), beq_false_of_ne (hne hstart'), Bool.false_and,
          Bool.false_and]

theorem symbol?_alike {words : Bool} {next next' : List Char} (h : Alike words next next')
    {c : Char} {cs : List Char} (hq : symbol? (c :: (cs ++ next)) = some (c :: cs, next)) :
    symbol? (c :: (cs ++ next')) = some (c :: cs, next') := by
  obtain ⟨s, hs, heq⟩ := Option.map_eq_some_iff.mp hq
  have htext : s.toList = c :: cs := congrArg Prod.fst heq
  have hfind : symbols.find? (fun s => s.toList.isPrefixOf (c :: (cs ++ next'))) = some s := by
    rw [← hs, ← List.head?_filter, ← List.head?_filter]
    exact congrArg List.head? (List.filter_congr fun t ht => (isPrefixOf_alike h ht c cs).symm)
  rw [symbol?, hfind, Option.map_some, htext]
  simp

theorem startsTrivia_slash (d : Char) (r : List Char) :
    startsTrivia ('/' :: d :: r) = (d == '/' || d == '*') := by
  by_cases hline : d = '/'
  · subst hline
    rfl
  by_cases hblock : d = '*'
  · subst hblock
    rfl
  rw [startsTrivia, beq_false_of_ne hline, beq_false_of_ne hblock]
  · rfl
  · rintro r' - h
    exact hline (List.cons.inj h).1
  · rintro r' - h
    exact hblock (List.cons.inj h).1

theorem opensComment_eq_false {d : Char} (h : isWordStart d = true) :
    (d == '/' || d == '*') = false := by
  rw [Bool.or_eq_false_iff, beq_eq_false_iff_ne, beq_eq_false_iff_ne]
  constructor
  · rintro rfl
    exact absurd h (by decide)
  · rintro rfl
    exact absurd h (by decide)

theorem startsTrivia_alike {words : Bool} {next next' : List Char} (h : Alike words next next')
    (c : Char) (cs : List Char) :
    startsTrivia (c :: (cs ++ next)) = startsTrivia (c :: (cs ++ next')) := by
  by_cases hc : c = '/'
  · subst hc
    cases cs with
    | cons d ds => rw [List.cons_append, List.cons_append, startsTrivia_slash, startsTrivia_slash]
    | nil =>
      rcases h with h | ⟨_, ⟨d, hd, hstart⟩, ⟨d', hd', hstart'⟩⟩
      · cases next <;> cases next' <;> cases h
        · rfl
        · rw [List.nil_append, List.nil_append, startsTrivia_slash, startsTrivia_slash]
      · cases next <;> cases hd
        cases next' <;> cases hd'
        rw [List.nil_append, List.nil_append, startsTrivia_slash, startsTrivia_slash,
          opensComment_eq_false hstart, opensComment_eq_false hstart']
  · rw [startsTrivia_cons hc, startsTrivia_cons hc]

/-- **A token is cut off in front of texts that start alike.** -/
theorem Cuts.alike {kind : TokenKind} {text next next' : List Char} {words : Bool}
    (h : Cuts kind text next) (ha : Alike words next next')
    (hnumber : kind = .number → words = false) : Cuts kind text next' := by
  have hlex := h.isLexeme
  obtain ⟨c, cs, rfl, hlexed⟩ := h.lexed
  cases kind with
  | word => exact cuts_word hlex (ha.end_of (fun _ _ => isWordPart_of_isWordStart) h.word_end)
  | number =>
    refine cuts_number hlex (ha.end_of (fun hw => ?_) h.number_end)
    rw [hnumber rfl] at hw
    cases hw
  | string =>
    refine ⟨?_, c, cs, rfl, hlexed.quoted (.inl rfl) next'⟩
    rw [List.cons_append, ← startsTrivia_alike ha]
    exact h.no_trivia
  | character =>
    refine ⟨?_, c, cs, rfl, hlexed.quoted (.inr rfl) next'⟩
    rw [List.cons_append, ← startsTrivia_alike ha]
    exact h.no_trivia
  | symbol =>
    obtain ⟨hw, hd, hs, hs', hq⟩ := hlexed.symbol_inv
    refine ⟨?_, c, cs, rfl, .symbol ?_ hd hs hs' (symbol?_alike ha hq)⟩
    · rw [List.cons_append, ← startsTrivia_alike ha]
      exact h.no_trivia
    · have hat : c ≠ '@' := by
        rintro rfl
        have hmem := (symbol?_eq_some hq).2
        exact absurd rfl (symbol_ne_at (List.contains_iff_mem.mp hmem) cs)
      rw [startsWord_cons _ hat] at hw ⊢
      exact hw
  | eof => cases hlex

end Migration.Scan
