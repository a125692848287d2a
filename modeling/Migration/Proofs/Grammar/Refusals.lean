import Migration.Proofs.Grammar.Standing
import Migration.Proofs.Token.Partition

/-!
# Where sources are refused

A scanner and productions refuse a source, and both say where. Scanning refuses what is ahead: an opening
that is never closed, also when the scanner has gone on to the end of the text by then
(`Scan.exists_of_trivia_error`), or a character. A production refuses a token: whatever it has read, looked
at or taken trivia from, the cursor stands at a place among the tokens of the source (`Cursor.StandsAt`), and
what is refused there is one of them (`Parser.Composed.isAbout`).

So every offset in an error is a place of the source, and what the error says of it is true
(`Module.parse_error_located`).
-/

namespace Migration

open Scan

/-! ### Scanning -/

/-- The text that opens what is never closed. -/
def Opening.mark : Opening → String
  | .comment => "/*"
  | .string => "\""
  | .character => "'"

/-- What is refused while scanning stands at the front of the characters. -/
def ParseError.Heads : ParseError → List Char → Prop
  | .unterminated what _, ahead => what.mark.toList <+: ahead
  | .invalidChar c _, ahead => [c] <+: ahead
  | .unexpected .., _ => False
  | .unsupported .., _ => False

theorem eq_error_of_map {ε α β : Type} {x : Except ε α} {f : α → β} {e : ε}
    (h : x.map f = .error e) : x = .error e := by
  cases x with
  | error e' =>
    cases h
    rfl
  | ok a => cases h

namespace Scan

variable {s : String} {i : Nat} {cs : List Char} {e : ParseError}

theorem bind_eq_error {ε α β : Type} {x : Except ε α} {f : α → Except ε β} {e : ε} :
    (x >>= f) = .error e ↔ x = .error e ∨ ∃ a, x = .ok a ∧ f a = .error e := by
  cases x with
  | error e' => simp [Bind.bind, Except.bind]
  | ok a => simp [Bind.bind, Except.bind]

theorem map_eq_error {ε α β : Type} {x : Except ε α} {f : α → β} {e : ε} :
    (do let a ← x; return f a) = .error e ↔ x = .error e := by
  cases x with
  | error e' => simp [Bind.bind, Except.bind]
  | ok a => simp [Bind.bind, Except.bind, Pure.pure, Except.pure]

/-- Only an open comment ends trivia too early. It was open already, or it was opened on the way. -/
theorem exists_of_trivia_error {st : TriviaState} (h : trivia st i cs = .error e) (hat : ReadAt s i cs)
    (hopen : ∀ start, st = .blockComment start → ∃ ahead, ReadAt s start ('/' :: '*' :: ahead)) :
    ∃ start ahead, e = .unterminated .comment start ∧ ReadAt s start ('/' :: '*' :: ahead) := by
  have htwo {j : Nat} {c d : Char} {ds : List Char} (hc : c.val ≤ 127) (hd : d.val ≤ 127)
      (h : ReadAt s j (c :: d :: ds)) : ReadAt s (j + 2) ds := (h.drop_one hc).drop_one hd
  have hone {j : Nat} {c : Char} {ds : List Char} (h : ReadAt s j (c :: ds)) :
      ReadAt s (j + c.utf8Size) ds := @ReadAt.advance s j [c] ds h
  fun_induction trivia st i cs with
  | case1 offset rest ih =>
    exact ih (map_eq_error.mp h) (htwo (by decide) (by decide) hat) fun _ hst => by cases hst
  | case2 offset rest ih =>
    refine ih (map_eq_error.mp h) (htwo (by decide) (by decide) hat) fun start hstart => ?_
    cases hstart
    exact ⟨rest, hat⟩
  | case3 offset c rest _ _ hb ih => exact ih (map_eq_error.mp h) (hone hat) fun _ hst => by cases hst
  | case4 offset c rest hline hblock hb => cases h
  | case5 offset c rest ih =>
    refine ih (map_eq_error.mp h) (hone hat) fun start hstart => ?_
    split at hstart <;> cases hstart
  | case6 start offset rest ih =>
    exact ih (map_eq_error.mp h) (htwo (by decide) (by decide) hat) fun _ hst => by cases hst
  | case7 start offset c rest hgo ih => exact ih (map_eq_error.mp h) (hone hat) hopen
  | case8 start offset =>
    cases h
    obtain ⟨ahead, hahead⟩ := hopen start rfl
    exact ⟨start, ahead, rfl, hahead⟩
  | case9 st offset _ => cases h

theorem lexeme_error {c : Char} {rest : List Char} (h : lexeme i c rest = .error e) :
    e.offset = i ∧ e.Heads (c :: rest) := by
  unfold lexeme at h
  split at h
  · cases h
  split at h
  · cases h
  split at h
  · next hs =>
    split at h
    · cases h
    · cases h
      rw [beq_iff_eq.mp hs]
      exact ⟨rfl, rest, rfl⟩
  split at h
  · next hs =>
    split at h
    · cases h
    · cases h
      rw [beq_iff_eq.mp hs]
      exact ⟨rfl, rest, rfl⟩
  split at h
  · cases h
  · cases h
    exact ⟨rfl, rest, rfl⟩

/-- **What scanning refuses stands in the text where the error says.** -/
theorem exists_of_tokensUpTo_error {n : Nat} (h : tokensUpTo n i cs = .error e) (hat : ReadAt s i cs) :
    ∃ ahead, ReadAt s e.offset ahead ∧ e.Heads ahead := by
  induction n generalizing i cs with
  | zero => cases h
  | succ n ih =>
    rw [tokensUpTo, bind_eq_error] at h
    rcases h with h | ⟨⟨lead, rest⟩, htrivia, h⟩
    · obtain ⟨start, ahead, rfl, hahead⟩ := exists_of_trivia_error h hat fun _ hst => by cases hst
      exact ⟨_, hahead, ahead, rfl⟩
    · obtain ⟨rfl, -, -⟩ := trivia_eq_ok htrivia
      have hrest : ReadAt s (i + byteLength lead) rest := hat.advance
      cases rest with
      | nil => cases h
      | cons c rest =>
        rcases bind_eq_error.mp h with h | ⟨⟨kind, text, rest'⟩, hlexeme, h⟩
        · obtain ⟨hoffset, hheads⟩ := lexeme_error h
          exact ⟨_, hoffset ▸ hrest, hheads⟩
        · obtain ⟨happ, -⟩ := (lexeme_eq_ok.mp hlexeme).eq_append
          rw [happ] at hrest
          exact ih (map_eq_error.mp h) hrest.advance

end Scan

/-! ### Parsing -/

/-- The error is about a token of the row: it stands at its offset, and names it if it names any. -/
def ParseError.IsAbout (t : Token) : ParseError → Prop
  | .unexpected found _ offset => t.offset = offset ∧ found = if t.kind = .eof then none else some t.text
  | .unsupported _ offset => t.offset = offset
  | .unterminated .. => False
  | .invalidChar .. => False

theorem ParseError.message_unexpected (found : Option String) (expected : Expectation) (offset : Nat) :
    message (.unexpected found expected offset)
      = "unexpected " ++ (found.map fun text => "`" ++ text ++ "`").getD "end of file"
        ++ " at byte " ++ toString offset ++ ", expected " ++ expected.text := by
  cases found <;> rfl

theorem ParseError.IsAbout.offset_eq {e : ParseError} {t : Token} (h : e.IsAbout t) :
    t.offset = e.offset := by
  cases e with
  | unexpected => exact h.1
  | unsupported => exact h
  | unterminated => exact h.elim
  | invalidChar => exact h.elim

namespace Cursor

variable {c : Cursor} {ts : Tokens} {i : Nat}

theorem StandsAt.isAbout_unexpected (h : c.StandsAt ts i) (hwords : ∀ t ∈ ts.words, t.kind ≠ .eof)
    (heof : ts.eof.kind = .eof) (expected : Expectation) :
    ∃ t ∈ ts.toList, (c.unexpected expected).IsAbout t := by
  rcases h.peek_cases with ⟨hend, hpeek⟩ | ⟨hend, t, ht, hpeek⟩
  · refine ⟨ts.eof, by simp [Tokens.toList], (congrArg Token.offset hpeek).symm, ?_⟩
    rw [if_pos hend, if_pos heof]
  · refine ⟨t, by simp [Tokens.toList, ht], (congrArg Token.offset hpeek).symm, ?_⟩
    rw [if_neg (by rw [hend]; decide), if_neg (hwords t ht)]
    have htext : c.peek.bare.text = t.bare.text := congrArg Token.text hpeek
    exact congrArg some htext

theorem StandsAt.isAbout_unsupported (h : c.StandsAt ts i) (what : Construct) :
    ∃ t ∈ ts.toList, (c.unsupported what).IsAbout t := by
  rcases h.peek_cases with ⟨-, hpeek⟩ | ⟨-, t, ht, hpeek⟩
  · exact ⟨ts.eof, by simp [Tokens.toList], (congrArg Token.offset hpeek).symm⟩
  · exact ⟨t, by simp [Tokens.toList, ht], (congrArg Token.offset hpeek).symm⟩

end Cursor

/-- **What a production refuses is one of the tokens.** -/
theorem Parser.Composed.isAbout {α : Type} {p : Parser α} (hp : p.Composed) {ts : Tokens}
    (hwords : ∀ t ∈ ts.words, t.kind ≠ .eof) (heof : ts.eof.kind = .eof) {c : Cursor} {i : Nat}
    (hc : c.StandsAt ts i) {e : ParseError} (hrun : p c = .error e) : ∃ t ∈ ts.toList, e.IsAbout t := by
  induction hp generalizing c i with
  | pure a => cases hrun
  | bind hp hf ihp ihf =>
    rcases bind_eq_error.mp hrun with h | ⟨⟨a, d⟩, ha, hb⟩
    · exact ihp hc h
    · obtain ⟨j, -, hd⟩ := hp.standsAt hc ha
      exact ihf a hd hb
  | look hf ih => exact ih c hc hrun
  | fresh => cases hrun
  | bump => cases hrun
  | takeLead => cases hrun
  | unexpected expected =>
    cases hrun
    exact hc.isAbout_unexpected hwords heof expected
  | unsupported what =>
    cases hrun
    exact hc.isAbout_unsupported what

/-! ### Sources -/

/-- A token of a source stands at its offset, its text being ahead. -/
theorem Tokens.exists_readAt {source : String} {ts : Tokens} (h : Tokens.ofSource source = .ok ts) {t : Token}
    (ht : t ∈ ts.toList) : ∃ ahead, ReadAt source t.offset (t.text.toList ++ ahead) := by
  obtain ⟨hspell, -, -, htext⟩ := scannable_of_tokensUpTo h (Nat.lt_succ_self _)
  obtain ⟨hplaced, -, -⟩ := placed_of_tokensUpTo h (Nat.lt_succ_self _)
  obtain ⟨front, back, hsplit⟩ := List.append_of_mem ht
  rw [hsplit] at hplaced
  have hsource : source.toList = (String.join (front.map Token.source)).toList ++ t.lead.toList
      ++ (t.text.toList ++ (String.join (back.map Token.source)).toList) := by
    rw [hspell, ← ts.toList_source htext, Tokens.source, hsplit]
    simp [Token.source]
  refine ⟨(String.join (back.map Token.source)).toList,
    (String.join (front.map Token.source)).toList ++ t.lead.toList, ?_, ?_⟩
  · rw [← hsource, String.ofList_toList]
  · rw [hplaced.offset_eq, byteLength_append, byteLength_toList, byteLength_toList, Nat.zero_add]

/-- Either the scanner refuses what is ahead at the offset, or a production refuses a token there. -/
theorem exists_of_parse_error {source : String} {e : ParseError} (h : Module.parse source = .error e) :
    ∃ ahead, ReadAt source e.offset ahead ∧ (e.Heads ahead
      ∨ ∃ ts, Tokens.ofSource source = .ok ts ∧ ∃ t ∈ ts.toList, e.IsAbout t) := by
  rcases bind_eq_error.mp h with h | ⟨ts, hts, h⟩
  · obtain ⟨ahead, hahead, hheads⟩ := exists_of_tokensUpTo_error h (.start source)
    exact ⟨ahead, hahead, .inl hheads⟩
  · obtain ⟨-, hwords, hend, -⟩ := placed_of_tokensUpTo hts (Nat.lt_succ_self _)
    have hrun : Parser.module (Cursor.ofTokens ts) = .error e := eq_error_of_map h
    obtain ⟨t, ht, habout⟩ :=
      Parser.composed_module.isAbout (fun t ht => (hwords t ht).1) hend (Cursor.standsAt_ofTokens ts) hrun
    obtain ⟨ahead, hahead⟩ := Tokens.exists_readAt hts ht
    refine ⟨_, habout.offset_eq ▸ hahead, .inr ⟨ts, hts, t, ht, habout⟩⟩

/-- **What a source is refused for stands in it.** The offset is one between two characters. It is that of
a token where a token or a construct is refused, and an unexpected token is named by its own text, the end of
the file by these words. Where scanning stops, the source goes on with the mark that opens what never ends, or
with the character that starts no token. -/
theorem Module.parse_error_located {source : String} {e : ParseError} (h : Module.parse source = .error e) :
    e.offset ≤ source.utf8ByteSize
      ∧ ∃ before after : String, source = before ++ after ∧ before.utf8ByteSize = e.offset
        ∧ match e with
          | .unexpected found expected offset =>
            ∃ ts, Tokens.ofSource source = .ok ts ∧ ∃ t ∈ ts.toList, t.offset = offset
              ∧ found = (if t.kind = .eof then none else some t.text)
              ∧ ParseError.message (.unexpected found expected offset)
                = "unexpected " ++ (if t.kind = .eof then "end of file" else "`" ++ t.text ++ "`")
                  ++ " at byte " ++ toString offset ++ ", expected " ++ expected.text
          | .unsupported _ offset =>
            ∃ ts, Tokens.ofSource source = .ok ts ∧ ∃ t ∈ ts.toList, t.offset = offset
          | .unterminated what _ => what.mark.toList <+: after.toList
          | .invalidChar c _ => after.toList.head? = some c := by
  obtain ⟨after, ⟨before, hsource, hbefore⟩, hwhat⟩ := exists_of_parse_error h
  have hsplit : source = String.ofList before ++ String.ofList after := by
    rw [hsource, String.ofList_append]
  have hsize : (String.ofList before).utf8ByteSize = e.offset := (utf8ByteSize_ofList before).trans hbefore
  refine ⟨?_, String.ofList before, String.ofList after, hsplit, hsize, ?_⟩
  · rw [hsplit, String.utf8ByteSize_append, hsize]
    exact Nat.le_add_right _ _
  · rw [String.toList_ofList]
    cases e with
    | unexpected found expected offset =>
      obtain ⟨ts, hts, t, ht, hoffset, hfound⟩ := hwhat.resolve_left fun hheads => hheads
      refine ⟨ts, hts, t, ht, hoffset, hfound, ?_⟩
      rw [ParseError.message_unexpected, hfound]
      by_cases hkind : t.kind = .eof
      · rw [if_pos hkind, if_pos hkind]
        rfl
      · rw [if_neg hkind, if_neg hkind]
        rfl
    | unsupported what offset => exact hwhat.resolve_left fun hheads => hheads
    | unterminated what offset => exact hwhat.resolve_right fun ⟨_, _, _, _, habout⟩ => habout
    | invalidChar c offset =>
      obtain ⟨rest, hrest⟩ := hwhat.resolve_right fun ⟨_, _, _, _, habout⟩ => habout
      rw [← hrest]
      rfl

/-- A class that is not closed, behind a comment with a character of two bytes. -/
theorem Module.parse_error_located_open :
    Module.parse "/* é */ class A \x7b " = .error (.unexpected none (.token "\x7d") 19)
      ∧ ∃ before after : String, "/* é */ class A \x7b " = before ++ after
        ∧ before.utf8ByteSize = 19 := by
  have hparse : Module.parse "/* é */ class A \x7b " = .error (.unexpected none (.token "\x7d") 19) :=
    eq_error_of_map (f := fun _ => ()) (by decide +kernel)
  obtain ⟨-, before, after, hsplit, hsize, -⟩ := Module.parse_error_located hparse
  exact ⟨hparse, before, after, hsplit, hsize⟩

end Migration
