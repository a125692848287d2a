import Migration.Proofs.Token.Trivia

/-!
# Scanning by byte positions

The scanner keeps a byte position, looks at single bytes, and cuts the text at the positions that it has
come to. It jumps to the end of a comment and takes two bytes at a backslash, so that its position may for a
while lie inside a character. `ByteScan.tokens` is this scanner, in which a cut off the boundaries of
characters, or a look beyond the text, gives nothing at all.

**No such thing happens** (`ByteScan.tokens_eq`): on every text it comes to what the scanner of characters
comes to, the tokens or the error. The reason is that the bytes it looks for are small, and that no small
byte is part of a greater character, so it only stops in front of whole ones.
-/

namespace Migration

open Scan

namespace ByteScan

/-! ### The scanner -/

/-- What a step comes to: a value or an error, or nothing where a byte is read beyond the text or the text
is cut inside a character. -/
abbrev Outcome (α : Type) := ExceptT ParseError Option α

/-- Nothing. -/
def broken {α : Type} : Outcome α := .mk none

/-- A value or an error. -/
def whole {α : Type} (x : Except ParseError α) : Outcome α := .mk (some x)

/-- The byte position is one between two characters of the text. -/
def atBoundary (s : String) (i : Nat) : Outcome Unit :=
  if String.Pos.Raw.isValid s ⟨i⟩ then return () else broken

/-- The text from one byte position to another. -/
def slice (s : String) (i j : Nat) : Outcome String := do
  atBoundary s i
  atBoundary s j
  if i ≤ j then return String.Pos.Raw.extract s ⟨i⟩ ⟨j⟩ else broken

/-- The text from the position on starts with another one. -/
def startsWith (s : String) (i : Nat) (t : String) : Outcome Bool := do
  atBoundary s i
  return (bytes t).isPrefixOf ((bytes s).drop i)

/-- The first position from `i` on at which the byte fails the test. -/
def skipWhile (test : UInt8 → Bool) (bs : List UInt8) (i : Nat) : Nat :=
  if h : i < bs.length then
    if test bs[i] then skipWhile test bs (i + 1) else i
  else i
termination_by bs.length - i

/-- How many bytes stand in front of the first occurrence of `sought`, which is not empty. -/
def find (sought : List UInt8) : List UInt8 → Option Nat
  | [] => none
  | b :: bs => if sought.isPrefixOf (b :: bs) then some 0 else (find sought bs).map (· + 1)

/-- The first line feed from the position on, or the end of the text. -/
def lineEnd (bs : List UInt8) (i : Nat) : Nat :=
  match (bs.drop i).findIdx? (onByte (· == '\n')) with
  | some k => i + k
  | none => bs.length

/-- The position behind the trivia at `i`, found in at most `n` rounds. -/
def skipTrivia (s : String) : Nat → Nat → Outcome Nat
  | 0, _ => broken
  | n + 1, i => do
    let i := skipWhile (onByte isBlank) (bytes s) i
    if ← startsWith s i "//" then skipTrivia s n (lineEnd (bytes s) i)
    else if ← startsWith s i "/*" then
      match find (bytes "*/") ((bytes s).drop (i + 2)) with
      | some k => skipTrivia s n (i + 2 + k + 2)
      | none => throw (.unterminated .comment i)
    else return i

/-- The position behind a closing quote from `i` on. -/
def quotedEnd (quote : Char) (bs : List UInt8) (i : Nat) : Option Nat :=
  if h : i < bs.length then
    if onByte (· == '\\') bs[i] then quotedEnd quote bs (i + 2)
    else if onByte (· == '\n') bs[i] then none
    else if onByte (· == quote) bs[i] then some (i + 1)
    else quotedEnd quote bs (i + 1)
  else none
termination_by bs.length - i

/-- A literal that opens with `quote` at the position. -/
def quoted (kind : TokenKind) (opening : Opening) (quote : Char) (s : String) (i : Nat) :
    Outcome (TokenKind × Nat) :=
  match quotedEnd quote (bytes s) (i + 1) with
  | some j => return (kind, j)
  | none => throw (.unterminated opening i)

/-- The kind of the lexeme at the position, and the position behind it. -/
def lexemeEnd (s : String) (i : Nat) : Outcome (TokenKind × Nat) :=
  match (bytes s).drop i with
  | [] => broken
  | b :: more =>
    let annotation := onByte (· == '@') b && more.head?.any (onByte isWordStart)
    if onByte isWordStart b || annotation then
      return (.word, skipWhile (onByte isWordPart) (bytes s) (i + 1))
    else if onByte Char.isDigit b then return (.number, skipWhile (onByte isNumberPart) (bytes s) i)
    else if onByte (· == '"') b then quoted .string .string '"' s i
    else if onByte (· == '\'') b then quoted .character .character '\'' s i
    else do
      atBoundary s i
      match symbols.find? fun t => (bytes t).isPrefixOf ((bytes s).drop i) with
      | some t => return (.symbol, i + t.utf8ByteSize)
      | none => throw (.invalidChar (String.Pos.Raw.get s ⟨i⟩) i)

/-- The tokens from the position on, at most `n` of them. -/
def tokensFrom (s : String) : Nat → Nat → Outcome Tokens
  | 0, _ => broken
  | n + 1, i => do
    let start ← skipTrivia s ((bytes s).length + 1) i
    let lead ← slice s i start
    if (bytes s).length ≤ start then return ⟨[], ⟨.eof, lead, "", start⟩⟩
    else
      let (kind, stop) ← lexemeEnd s start
      let text ← slice s start stop
      let tokens ← tokensFrom s n stop
      return tokens.cons ⟨kind, lead, text, start⟩

/-- The tokens of a text. -/
def tokens (s : String) : Outcome Tokens := tokensFrom s ((bytes s).length + 1) 0

/-! ### Cuts -/

section

variable {α β : Type}

@[simp] theorem whole_ok_bind (a : α) (f : α → Outcome β) : whole (.ok a) >>= f = f a := rfl

theorem pure_eq_whole (a : α) : (pure a : Outcome α) = whole (.ok a) := rfl

end

variable {s : String} {i : Nat} {cs ds : List Char}

theorem atBoundary_eq (h : ReadAt s i cs) : atBoundary s i = whole (.ok ()) := by
  rw [atBoundary, h.isValid]
  rfl

theorem slice_eq (h : ReadAt s i (cs ++ ds)) :
    slice s i (i + byteLength cs) = whole (.ok (String.ofList cs)) := by
  rw [slice, atBoundary_eq h, atBoundary_eq h.advance, if_pos (Nat.le_add_right i _), h.extract]
  rfl

theorem startsWith_eq (h : ReadAt s i cs) {t : String} (ht : ∀ c ∈ t.toList, c.val ≤ 127) :
    startsWith s i t = whole (.ok (t.toList.isPrefixOf cs)) := by
  rw [startsWith, atBoundary_eq h, h.drop_bytes, bytes_eq, isPrefixOf_utf8 ht]
  rfl

/-! ### Looking for bytes -/

theorem of_drop_eq_cons {bs l : List UInt8} {b : UInt8} (h : bs.drop i = b :: l) :
    ∃ hi : i < bs.length, bs[i] = b ∧ bs.drop (i + 1) = l := by
  have hi : i < bs.length := by
    by_contra hle
    rw [List.drop_eq_nil_of_le (Nat.le_of_not_lt hle)] at h
    cases h
  rw [List.drop_eq_getElem_cons hi] at h
  exact ⟨hi, List.cons.inj h⟩

theorem skipWhile_eq {test : UInt8 → Bool} {bs l : List UInt8} (h : bs.drop i = l) :
    skipWhile test bs i = i + (l.takeWhile test).length := by
  induction l generalizing i with
  | nil =>
    have hle := List.drop_eq_nil_iff.mp h
    rw [skipWhile, dif_neg (Nat.not_lt.mpr hle)]
    rfl
  | cons b l ih =>
    obtain ⟨hi, hb, hl⟩ := of_drop_eq_cons h
    rw [skipWhile, dif_pos hi, hb, List.takeWhile_cons]
    split
    · rw [ih hl, List.length_cons]
      omega
    · rfl

/-- The bytes that pass a test are those of the characters that pass it. -/
theorem length_takeWhile_utf8 {test : Char → Bool} (htest : IsSmall test) (cs : List Char) :
    ((utf8 cs).takeWhile (onByte test)).length = byteLength (cs.takeWhile test) := by
  induction cs with
  | nil => rfl
  | cons c cs ih =>
    obtain ⟨b, hi, hcs, _, hlength, hb⟩ := exists_utf8_cons c cs
    rw [hcs, List.takeWhile_cons, List.takeWhile_cons, hb test htest]
    split
    · next hc =>
      have hsize := utf8Size_of_small (htest c hc)
      rw [List.eq_nil_of_length_eq_zero (by omega : hi.length = 0), List.nil_append, List.length_cons, ih,
        byteLength_cons]
      omega
    · rfl

theorem skipWhile_onByte {test : Char → Bool} (htest : IsSmall test) (h : ReadAt s i cs) :
    skipWhile (onByte test) (bytes s) i = i + byteLength (cs.takeWhile test) := by
  rw [skipWhile_eq h.drop_bytes, length_takeWhile_utf8 htest]

/-- The first byte that passes a test is the first character that passes it. -/
theorem findIdx?_utf8 {test : Char → Bool} (htest : IsSmall test) (cs : List Char) :
    (utf8 cs).findIdx? (onByte test) =
      if cs.any test then some (byteLength (cs.takeWhile (!test ·))) else none := by
  induction cs with
  | nil => rfl
  | cons c cs ih =>
    obtain ⟨b, hi, hcs, hinner, hlength, hb⟩ := exists_utf8_cons c cs
    rw [hcs, List.findIdx?_cons, hb test htest, List.any_cons, List.takeWhile_cons]
    cases hc : test c with
    | true => rfl
    | false =>
      have hnone : hi.findIdx? (onByte test) = none :=
        List.findIdx?_eq_none_iff.mpr fun x hx => onByte_of_inner (hinner x hx) test
      rw [List.findIdx?_append, hnone, ih]
      cases cs.any test with
      | false => rfl
      | true =>
        simp only [if_true, Option.map_some, Option.none_or, Bool.not_false, Bool.false_or,
          Bool.false_eq_true, if_false, byteLength_cons, Option.some.injEq]
        omega

theorem find_inner {a : UInt8} {as hi l : List UInt8} (ha : a.toNat < 128) (hinner : IsInner hi) :
    find (a :: as) (hi ++ l) = (find (a :: as) l).map (· + hi.length) := by
  induction hi with
  | nil => simp
  | cons b hi ih =>
    obtain ⟨hb, hhi⟩ := List.forall_mem_cons.mp hinner
    have hne : (a == b) = false := by
      rw [beq_eq_false_iff_ne]
      rintro rfl
      omega
    rw [List.cons_append, find, List.isPrefixOf_cons_cons, hne, Bool.false_and, if_neg Bool.false_ne_true,
      ih hhi, Option.map_map]
    rfl

theorem isSmall_closing : ∀ c ∈ "*/".toList, c.val ≤ 127 := forall_small (by decide)

theorem find_blockEnd (cs : List Char) :
    find (bytes "*/") (utf8 cs) = (blockEnd? cs).map fun x => byteLength x.1 := by
  have hclosing : bytes "*/" = [0x2a, 0x2f] := by decide
  have hprefix (cs : List Char) : [0x2a, 0x2f].isPrefixOf (utf8 cs) = ['*', '/'].isPrefixOf cs := by
    rw [← hclosing, bytes_eq]
    exact isPrefixOf_utf8 isSmall_closing cs
  rw [hclosing]
  fun_induction blockEnd? cs with
  | case1 cs =>
    obtain ⟨b, hi, hcs, _⟩ := exists_utf8_cons '*' ('/' :: cs)
    have hfound := hprefix ('*' :: '/' :: cs)
    rw [hcs] at hfound ⊢
    rw [find, hfound]
    rfl
  | case2 c cs hno ih =>
    obtain ⟨b, hi, hcs, hinner, hlength, _⟩ := exists_utf8_cons c cs
    have hmissed : ['*', '/'].isPrefixOf (c :: cs) = false := by
      rw [Bool.eq_false_iff]
      intro h
      obtain ⟨rest, hrest⟩ := List.isPrefixOf_iff_prefix.mp h
      obtain ⟨hstar, hrest⟩ := List.cons.inj hrest
      exact hno rest hstar.symm hrest.symm
    have hfound := hprefix (c :: cs)
    rw [hmissed] at hfound
    rw [hcs] at hfound ⊢
    rw [find, hfound, if_neg Bool.false_ne_true, find_inner (by decide) hinner, ih]
    cases blockEnd? cs with
    | none => rfl
    | some x =>
      simp only [Option.map_some, byteLength_cons, Option.some.injEq]
      omega
  | case3 => rfl

/-! ### Trivia -/

theorem isSmall_isBlank : IsSmall isBlank := by
  intro c hc
  simp only [isBlank, Bool.or_eq_true, beq_iff_eq] at hc
  rcases hc with (((rfl | rfl) | rfl) | rfl) | rfl <;> decide

theorem small_of_isAlphanum {c : Char} (h : c.isAlphanum = true) : c.val ≤ 127 := by
  rcases Bool.or_eq_true_iff.mp h with h | hdigit
  · rcases Bool.or_eq_true_iff.mp h with hupper | hlower
    · exact UInt32.le_trans (of_decide_eq_true hupper).2 (by decide)
    · exact UInt32.le_trans (of_decide_eq_true (Bool.and_eq_true_iff.mp hlower).2) (by decide)
  · exact UInt32.le_trans (of_decide_eq_true (Bool.and_eq_true_iff.mp hdigit).2) (by decide)

theorem isSmall_isWordPart : IsSmall isWordPart := by
  intro c hc
  simp only [isWordPart, Bool.or_eq_true, beq_iff_eq] at hc
  rcases hc with (hc | rfl) | rfl
  · exact small_of_isAlphanum hc
  · decide
  · decide

theorem isSmall_isNumberPart : IsSmall isNumberPart := by
  intro c hc
  simp only [isNumberPart, Bool.or_eq_true, beq_iff_eq] at hc
  rcases hc with (hc | rfl) | rfl
  · exact small_of_isAlphanum hc
  · decide
  · decide

theorem lineEnd_eq (h : ReadAt s i cs) :
    lineEnd (bytes s) i = i + byteLength (cs.takeWhile (· != '\n')) := by
  have htest : (fun c : Char => !(c == '\n')) = (· != '\n') := rfl
  rw [lineEnd, h.drop_bytes, findIdx?_utf8 (isSmall_beq (by decide)), htest]
  cases hany : cs.any (· == '\n') with
  | true => rfl
  | false =>
    -- without a line feed it is the whole text
    have hall : cs.takeWhile (· != '\n') = cs := by
      rw [List.takeWhile_eq_self_iff]
      intro c hc
      simpa using List.any_eq_false.mp hany c hc
    rw [hall]
    exact h.length_bytes

theorem map_behind_position (front : List Char) (x : Except ParseError (List Char × List Char)) (i : Nat) :
    (x.map (behind front)).map (fun x => i + byteLength x.1) =
      x.map fun x => i + byteLength front + byteLength x.1 := by
  cases x with
  | error e => rfl
  | ok x => simp only [Except.map, behind, byteLength_append, Nat.add_assoc]

theorem startsWith_comment (h : ReadAt s i cs) {c : Char} (hc : c.val ≤ 127) {t : String}
    (ht : t.toList = ['/', c]) : startsWith s i t = whole (.ok (['/', c].isPrefixOf cs)) := by
  rw [startsWith_eq h (by rw [ht]; simp [hc]), ht]

theorem not_isPrefixOf_of_end (h : startsTrivia cs = false) :
    ['/', '/'].isPrefixOf cs = false ∧ ['/', '*'].isPrefixOf cs = false := by
  rw [Bool.eq_false_iff, Bool.eq_false_iff]
  constructor
  · intro hprefix
    obtain ⟨rest, rfl⟩ := List.isPrefixOf_iff_prefix.mp hprefix
    cases h
  · intro hprefix
    obtain ⟨rest, rfl⟩ := List.isPrefixOf_iff_prefix.mp hprefix
    cases h

/-- The position comes behind the trivia, when there are rounds enough. -/
theorem skipTrivia_eq {n : Nat} (h : ReadAt s i cs) (hn : cs.length < n) :
    skipTrivia s n i = whole ((trivia .between i cs).map fun x => i + byteLength x.1) := by
  induction n generalizing i cs with
  | zero => omega
  | succ n ih =>
    have hblanks := cs.takeWhile_append_dropWhile (p := isBlank)
    have hlength : (cs.dropWhile isBlank).length ≤ cs.length := (List.dropWhile_sublist _).length_le
    rw [skipTrivia, skipWhile_onByte isSmall_isBlank h, trivia_blanks, map_behind_position]
    rw [← hblanks] at h
    have hnext := h.advance
    generalize i + byteLength (cs.takeWhile isBlank) = j at hnext
    rcases dropBlanks_cases cs with ⟨rest, hcomment⟩ | ⟨rest, hcomment⟩ | hend
    · rw [hcomment] at hnext hlength ⊢
      have hline : ReadAt s (j + byteLength ('/' :: '/' :: rest.takeWhile (· != '\n')))
          (rest.dropWhile (· != '\n')) := by
        refine ReadAt.advance ?_
        rwa [List.cons_append, List.cons_append, List.takeWhile_append_dropWhile]
      have hshorter := (List.dropWhile_sublist (· != '\n') (l := rest)).length_le
      rw [List.length_cons, List.length_cons] at hlength
      rw [startsWith_comment hnext (c := '/') (by decide) rfl, whole_ok_bind, lineEnd_eq hnext,
        trivia_lineComment, map_behind_position]
      exact ih hline (by omega)
    · rw [hcomment] at hnext hlength ⊢
      rw [startsWith_comment hnext (c := '/') (by decide) rfl, whole_ok_bind,
        startsWith_comment hnext (c := '*') (by decide) rfl, trivia_blockComment]
      have hinside : ReadAt s (j + 2) rest := (hnext.drop_one (by decide)).drop_one (by decide)
      rw [hinside.drop_bytes, find_blockEnd]
      cases hclose : blockEnd? rest with
      | none => rfl
      | some x =>
        obtain ⟨body, more⟩ := x
        obtain ⟨hrest, _⟩ := blockEnd?_eq_some hclose
        have hbehind : ReadAt s (j + byteLength (['/', '*'] ++ body ++ ['*', '/'])) more := by
          refine ReadAt.advance ?_
          rw [hrest] at hnext
          simpa using hnext
        have hclosing : j + 2 + byteLength body + 2 = j + byteLength (['/', '*'] ++ body ++ ['*', '/']) := by
          have hopening : byteLength ['/', '*'] = 2 := by decide
          have hclosing : byteLength ['*', '/'] = 2 := by decide
          rw [byteLength_append, byteLength_append]
          omega
        have hshorter : more.length < n := by
          rw [hrest] at hlength
          simp only [List.length_cons, List.length_append] at hlength
          omega
        dsimp only
        rw [map_behind_position, ← hclosing]
        rw [← hclosing] at hbehind
        exact ih hbehind hshorter
    · obtain ⟨hline, hblock⟩ := not_isPrefixOf_of_end hend
      rw [startsWith_comment hnext (c := '/') (by decide) rfl, whole_ok_bind, hline,
        startsWith_comment hnext (c := '*') (by decide) rfl, whole_ok_bind, hblock, trivia_of_end j hend]
      rfl

/-! ### Lexemes -/

theorem quotedEnd_inner {quote : Char} {bs hi l : List UInt8} (hinner : IsInner hi)
    (h : bs.drop i = hi ++ l) : quotedEnd quote bs i = quotedEnd quote bs (i + hi.length) := by
  induction hi generalizing i with
  | nil => rfl
  | cons b hi ih =>
    obtain ⟨hb, hhi⟩ := List.forall_mem_cons.mp hinner
    obtain ⟨hlt, heq, hdrop⟩ := of_drop_eq_cons h
    rw [quotedEnd, dif_pos hlt, heq, onByte_of_inner hb, onByte_of_inner hb, onByte_of_inner hb]
    simp only [Bool.false_eq_true, if_false]
    rw [ih hhi hdrop, List.length_cons, Nat.add_assoc, Nat.add_comm 1]

theorem drop_utf8_cons {bs : List UInt8} {c : Char} (h : bs.drop i = utf8 (c :: cs)) :
    bs.drop (i + c.utf8Size) = utf8 cs := by
  have hcons : utf8 (c :: cs) = String.utf8EncodeChar c ++ utf8 cs := List.flatMap_cons
  rw [← List.drop_drop, h, hcons, ← String.length_utf8EncodeChar, List.drop_left]

/-- One character of a literal: the position comes behind it, but only two bytes on behind a backslash. -/
theorem quotedEnd_cons {quote c : Char} (hquote : quote.val ≤ 127) {bs : List UInt8}
    (h : bs.drop i = utf8 (c :: cs)) : quotedEnd quote bs i =
      if c == '\\' then quotedEnd quote bs (i + 2)
      else if c == '\n' then none
      else if c == quote then some (i + 1)
      else quotedEnd quote bs (i + c.utf8Size) := by
  obtain ⟨b, hi, hcs, hinner, hlength, htest⟩ := exists_utf8_cons c cs
  rw [hcs] at h
  obtain ⟨hlt, heq, hdrop⟩ := of_drop_eq_cons h
  have hskip : quotedEnd quote bs (i + 1) = quotedEnd quote bs (i + c.utf8Size) := by
    rw [quotedEnd_inner hinner hdrop, ← hlength, Nat.add_assoc, Nat.add_comm 1]
  rw [quotedEnd, dif_pos hlt, heq, htest _ (isSmall_beq (by decide)), htest _ (isSmall_beq (by decide)),
    htest _ (isSmall_beq hquote), hskip]

/-- The position comes behind the closing quote. After a backslash it may lie inside a character, and comes
out of it at its end. -/
theorem quotedEnd_eq {quote : Char} (hquote : quote.val ≤ 127) {bs : List UInt8} (h : bs.drop i = utf8 cs) :
    quotedEnd quote bs i = (quotedRest quote cs).map fun x => i + byteLength x.1 := by
  have hslash : '\\'.utf8Size = 1 := utf8Size_of_small (by decide)
  fun_induction quotedRest quote cs generalizing i with
  | case1 =>
    have hle := List.drop_eq_nil_iff.mp h
    rw [quotedEnd, dif_neg (Nat.not_lt.mpr hle)]
    rfl
  | case2 c rest ih =>
    have hescaped := drop_utf8_cons h
    have hbehind := drop_utf8_cons hescaped
    obtain ⟨b, hi, hcs, hinner, hlength, _⟩ := exists_utf8_cons c rest
    rw [hslash, hcs] at hescaped
    obtain ⟨_, _, hinside⟩ := of_drop_eq_cons hescaped
    have hend : i + 2 + hi.length = i + '\\'.utf8Size + c.utf8Size := by omega
    rw [quotedEnd_cons hquote h, if_pos (beq_self_eq_true _), quotedEnd_inner hinner hinside, hend,
      ih hbehind]
    cases quotedRest quote rest with
    | none => rfl
    | some x => simp only [Option.map_some, byteLength_cons, Nat.add_assoc]
  | case3 c rest hesc hbad =>
    rw [quotedEnd_cons hquote h]
    by_cases hback : c = '\\'
    · -- a backslash at the end of the text, beyond which the position comes
      subst hback
      obtain rfl : rest = [] := by
        cases rest with
        | nil => rfl
        | cons d ds => exact absurd rfl (hesc d ds rfl)
      have hle := List.drop_eq_nil_iff.mp (drop_utf8_cons h)
      rw [if_pos (beq_self_eq_true _), quotedEnd, dif_neg (by omega)]
      rfl
    · have hbreak : c = '\n' := by simpa [hback] using hbad
      rw [if_neg (by simpa using hback), if_pos (by simpa using hbreak)]
      rfl
  | case4 c rest hesc hbad hq =>
    obtain ⟨hback, hbreak⟩ : ¬ (c == '\\') = true ∧ ¬ (c == '\n') = true := by simpa using hbad
    rw [quotedEnd_cons hquote h, if_neg hback, if_neg hbreak, if_pos hq, Option.map_some, byteLength_cons,
      beq_iff_eq.mp hq, utf8Size_of_small hquote]
    rfl
  | case5 c rest hesc hbad hq ih =>
    obtain ⟨hback, hbreak⟩ : ¬ (c == '\\') = true ∧ ¬ (c == '\n') = true := by simpa using hbad
    rw [quotedEnd_cons hquote h, if_neg hback, if_neg hbreak, if_neg hq, ih (drop_utf8_cons h)]
    cases quotedRest quote rest with
    | none => rfl
    | some x => simp only [Option.map_some, byteLength_cons, Nat.add_assoc]

theorem quoted_eq {kind : TokenKind} {opening : Opening} {quote : Char} (hquote : quote.val ≤ 127)
    (h : ReadAt s i (quote :: cs)) : quoted kind opening quote s i =
      whole (Except.map (fun x => (x.1, i + byteLength x.2.1)) (match quotedRest quote cs with
        | some (body, rest) => .ok (kind, quote :: body, rest)
        | none => (.error (.unterminated opening i) : Except _ (TokenKind × List Char × List Char)))) := by
  rw [quoted, quotedEnd_eq hquote (h.drop_one hquote).drop_bytes]
  cases quotedRest quote cs with
  | none => rfl
  | some x =>
    obtain ⟨body, rest⟩ := x
    simp only [Option.map_some, Except.map, byteLength_cons, utf8Size_of_small hquote, Nat.add_assoc]
    rfl

theorem isSmall_isWordStart : IsSmall isWordStart :=
  fun c hc => isSmall_isWordPart c (isWordPart_of_isWordStart hc)

theorem isSmall_isDigit : IsSmall Char.isDigit := by
  intro c hc
  refine small_of_isAlphanum ?_
  rw [Char.isAlphanum, hc, Bool.or_true]

theorem head?_utf8 {test : Char → Bool} (htest : IsSmall test) (cs : List Char) :
    (utf8 cs).head?.any (onByte test) = cs.head?.any test := by
  cases cs with
  | nil => rfl
  | cons c cs =>
    obtain ⟨b, hi, hcs, _, _, hb⟩ := exists_utf8_cons c cs
    rw [hcs]
    exact hb test htest

theorem startsWord_eq (c : Char) (cs : List Char) :
    startsWord (c :: cs) = (isWordStart c || (c == '@' && cs.head?.any isWordStart)) := by
  by_cases hc : c = '@'
  · subst hc
    cases cs <;> rfl
  · rw [startsWord_cons cs hc, beq_eq_false_iff_ne.mpr hc, Bool.false_and, Bool.or_false]

theorem find?_congr {α : Type} {p q : α → Bool} {l : List α} (h : ∀ a ∈ l, p a = q a) :
    l.find? p = l.find? q := by
  induction l with
  | nil => rfl
  | cons a l ih =>
    have hl := ih fun b hb => h b (List.mem_cons_of_mem _ hb)
    rw [List.find?_cons, List.find?_cons, h a List.mem_cons_self, hl]

theorem isSmall_symbols : ∀ t ∈ symbols, ∀ c ∈ t.toList, c.val ≤ 127 := by
  have h : (symbols.all fun t => t.toList.all fun c => c.val ≤ 127) = true := by decide
  exact fun t ht => forall_small (List.all_eq_true.mp h t ht)

/-- **One lexeme.** The position comes behind it. -/
theorem lexemeEnd_eq {c : Char} {rest : List Char} (h : ReadAt s i (c :: rest)) :
    lexemeEnd s i = whole ((lexeme i c rest).map fun x => (x.1, i + byteLength x.2.1)) := by
  obtain ⟨b, hi, hcs, hinner, hlength, htest⟩ := exists_utf8_cons c rest
  have hword : (onByte isWordStart b || (onByte (· == '@') b &&
      (hi ++ utf8 rest).head?.any (onByte isWordStart))) = startsWord (c :: rest) := by
    rw [startsWord_eq, htest _ isSmall_isWordStart, htest _ (isSmall_beq (by decide))]
    by_cases hc : c = '@'
    · subst hc
      have hsize := utf8Size_of_small (c := '@') (by decide)
      rw [List.eq_nil_of_length_eq_zero (by omega : hi.length = 0), List.nil_append,
        head?_utf8 isSmall_isWordStart]
    · rw [beq_eq_false_iff_ne.mpr hc, Bool.false_and, Bool.false_and]
  unfold lexemeEnd lexeme
  rw [h.drop_bytes, hcs]
  dsimp only
  rw [hword, htest _ isSmall_isDigit, htest _ (isSmall_beq (by decide)), htest _ (isSmall_beq (by decide))]
  by_cases hw : startsWord (c :: rest) = true
  · have hsmall : c.val ≤ 127 := by
      rw [startsWord_eq, Bool.or_eq_true, Bool.and_eq_true, beq_iff_eq] at hw
      rcases hw with hw | ⟨rfl, _⟩
      · exact isSmall_isWordStart c hw
      · decide
    rw [if_pos hw, if_pos hw, skipWhile_onByte isSmall_isWordPart (h.drop_one hsmall), pure_eq_whole, Except.map,
      byteLength_cons, utf8Size_of_small hsmall, Nat.add_assoc]
  · rw [if_neg hw, if_neg hw]
    by_cases hd : c.isDigit = true
    · have hpart : isNumberPart c = true := by
        rw [isNumberPart, Char.isAlphanum, hd, Bool.or_true, Bool.true_or, Bool.true_or]
      rw [if_pos hd, if_pos hd, skipWhile_onByte isSmall_isNumberPart h, List.takeWhile_cons_of_pos hpart]
      rfl
    · rw [if_neg hd, if_neg hd]
      by_cases hs : c = '"'
      · subst hs
        exact quoted_eq (by decide) h
      · have hs : ¬ (c == '"') = true := by simpa using hs
        rw [if_neg hs, if_neg hs]
        by_cases hs' : c = '\''
        · subst hs'
          exact quoted_eq (by decide) h
        · have hs' : ¬ (c == '\'') = true := by simpa using hs'
          rw [if_neg hs', if_neg hs', atBoundary_eq h, whole_ok_bind, symbol?]
          have hfind : (symbols.find? fun t => (bytes t).isPrefixOf (b :: (hi ++ utf8 rest))) =
              symbols.find? fun t => t.toList.isPrefixOf (c :: rest) := by
            refine find?_congr fun t ht => ?_
            rw [← hcs, bytes_eq, isPrefixOf_utf8 (isSmall_symbols t ht)]
          rw [hfind]
          cases symbols.find? fun t => t.toList.isPrefixOf (c :: rest) with
          | none => rw [h.get]; rfl
          | some t =>
            simp only [Option.map_some]
            rw [← byteLength_toList]
            rfl

/-! ### Tokens -/

/-- Behind the trivia at the end there is no token but the end of the file. -/
theorem tokensUpTo_end {n : Nat} {lead : List Char} (h : trivia .between i cs = .ok (lead, [])) :
    tokensUpTo (n + 1) i cs = .ok ⟨[], ⟨.eof, String.ofList lead, "", i + byteLength lead⟩⟩ := by
  rw [tokensUpTo, h]
  rfl

/-- Behind other trivia there is a lexeme, and behind it the rest of the tokens. -/
theorem tokensUpTo_next {n : Nat} {lead rest : List Char} {c : Char}
    (h : trivia .between i cs = .ok (lead, c :: rest)) : tokensUpTo (n + 1) i cs = (do
      let (kind, text, rest) ← lexeme (i + byteLength lead) c rest
      let tokens ← tokensUpTo n (i + byteLength lead + byteLength text) rest
      return tokens.cons ⟨kind, String.ofList lead, String.ofList text, i + byteLength lead⟩) := by
  rw [tokensUpTo, h]
  rfl

/-- The scanner of positions comes to what the scanner of characters comes to. -/
theorem tokensFrom_eq {n m : Nat} (h : ReadAt s i cs) (hn : cs.length < n) (hm : cs.length < m) :
    tokensFrom s n i = whole (tokensUpTo m i cs) := by
  induction n generalizing m i cs with
  | zero => omega
  | succ n ih =>
    cases m with
    | zero => omega
    | succ m =>
      have hrounds : cs.length < (bytes s).length + 1 := by
        have hbytes := h.length_bytes
        have hle := length_le_byteLength cs
        omega
      rw [tokensFrom, skipTrivia_eq h hrounds]
      cases htrivia : trivia .between i cs with
      | error e =>
        rw [tokensUpTo, htrivia]
        rfl
      | ok x =>
        obtain ⟨lead, rest⟩ := x
        obtain ⟨rfl, _, _⟩ := trivia_eq_ok htrivia
        have hnext := h.advance
        rw [Except.map, whole_ok_bind]
        dsimp only
        rw [slice_eq h, whole_ok_bind, hnext.length_bytes]
        cases rest with
        | nil =>
          rw [byteLength_nil, Nat.add_zero, if_pos (Nat.le_refl _), tokensUpTo_end htrivia]
          rfl
        | cons c rest =>
          have hpos := c.utf8Size_pos
          rw [if_neg (by rw [byteLength_cons]; omega), tokensUpTo_next htrivia, lexemeEnd_eq hnext]
          cases hlexeme : lexeme (i + byteLength lead) c rest with
          | error e => rfl
          | ok x =>
            obtain ⟨kind, text, rest'⟩ := x
            obtain ⟨happ, hlex⟩ := (lexeme_eq_ok.mp hlexeme).eq_append
            have htext := List.length_pos_iff.mpr (isLexeme_ne_nil hlex)
            rw [happ] at hnext hn hm
            rw [List.length_append, List.length_append] at hn hm
            rw [Except.map, whole_ok_bind]
            dsimp only
            rw [slice_eq hnext, whole_ok_bind, ih (m := m) hnext.advance (by omega) (by omega)]
            show _ = whole (tokensUpTo m (i + byteLength lead + byteLength text) rest' >>= _)
            cases tokensUpTo m (i + byteLength lead + byteLength text) rest' <;> rfl

/-- **No text is cut inside a character**, and no byte beyond it is read, on any text, whether it is
accepted or not. -/
theorem tokens_eq (source : String) : tokens source = whole (Tokens.ofSource source) := by
  refine tokensFrom_eq (ReadAt.start source) ?_ (Nat.lt_succ_self _)
  rw [(ReadAt.start source).length_bytes]
  have hle := length_le_byteLength source.toList
  omega

end ByteScan

end Migration
