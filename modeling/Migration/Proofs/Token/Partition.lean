import Migration.Proofs.Token.Positions

/-!
# The tokens of a source

The tokens of a source are a partition of it: they spell it, each has a text but the last, which is the end
of the file, and in front of a text there is nothing but blanks and comments. `Tokens.Placed` says that they
stand one behind another from a byte position on, so an offset is the number of bytes in front of the text
(`Tokens.ofSource_partition`).
-/

namespace Migration

open Scan

namespace Token

/-- A token with a text, behind trivia that end in front of it. -/
def IsProper (t : Token) : Prop := t.kind ≠ .eof ∧ t.text ≠ "" ∧ IsTrivia false t.lead.toList

/-- The end of the file, behind trivia that may end with it. -/
def IsEnd (t : Token) : Prop := t.kind = .eof ∧ t.text = "" ∧ IsTrivia true t.lead.toList

end Token

namespace Tokens

/-- The tokens stand one behind another from the byte position on. -/
def Placed : Nat → List Token → Prop
  | _, [] => True
  | i, t :: ts => t.offset = i + t.lead.utf8ByteSize ∧ Placed (i + t.source.utf8ByteSize) ts

theorem Placed.offset_eq {i : Nat} {front back : List Token} {t : Token}
    (h : Placed i (front ++ t :: back)) :
    t.offset = i + (String.join (front.map Token.source)).utf8ByteSize + t.lead.utf8ByteSize := by
  induction front generalizing i with
  | nil =>
    rw [List.map_nil, String.join_nil, String.utf8ByteSize_empty, Nat.add_zero]
    exact h.1
  | cons u front ih =>
    rw [ih h.2, List.map_cons, String.join_cons, String.utf8ByteSize_append]
    omega

theorem toList_source (ts : Tokens) (htext : ts.eof.text = "") :
    ts.source.toList = spell ts.words ++ ts.eof.lead.toList := by
  have hsource : String.toList ∘ Token.source = fun t : Token => t.lead.toList ++ t.text.toList :=
    funext fun t => String.toList_append
  simp [source, toList, spell, Token.source, htext, List.flatMap, hsource]

end Tokens

namespace Scan

variable {i : Nat} {cs : List Char} {ts : Tokens}

theorem utf8ByteSize_ofList (cs : List Char) : (String.ofList cs).utf8ByteSize = byteLength cs := by
  rw [← byteLength_toList, String.toList_ofList]

theorem kind_ne_eof_of_isLexeme {kind : TokenKind} {text : List Char} (h : isLexeme kind text = true) :
    kind ≠ .eof := by
  rintro rfl
  cases h

/-- One round after another, the tokens come without a gap, and each is what it should be. -/
theorem placed_of_tokensUpTo {n : Nat} (h : tokensUpTo n i cs = .ok ts) (hn : cs.length < n) :
    Tokens.Placed i ts.toList ∧ (∀ t ∈ ts.words, t.IsProper) ∧ ts.eof.IsEnd := by
  induction n generalizing i cs ts with
  | zero => omega
  | succ n ih =>
    rw [tokensUpTo] at h
    obtain ⟨⟨lead, rest⟩, htrivia, hrest⟩ := bind_eq_ok.mp h
    obtain ⟨hcs, _, _⟩ := trivia_eq_ok htrivia
    have hlead := isTrivia_of_trivia htrivia
    rw [← String.toList_ofList (l := lead)] at hlead
    cases rest with
    | nil =>
      cases hrest
      exact ⟨⟨by rw [utf8ByteSize_ofList], trivial⟩, List.forall_mem_nil _, rfl, rfl, hlead⟩
    | cons c rest =>
      obtain ⟨⟨kind, text, rest'⟩, hlexeme, hmore⟩ := bind_eq_ok.mp hrest
      obtain ⟨ts', htokens, hok⟩ := bind_eq_ok.mp hmore
      cases hok
      obtain ⟨happ, hlex⟩ := (lexeme_eq_ok.mp hlexeme).eq_append
      have htext := isLexeme_ne_nil hlex
      have hshorter : rest'.length < n := by
        have hpos := List.length_pos_iff.mpr htext
        rw [hcs, happ, List.length_append, List.length_append] at hn
        omega
      obtain ⟨hplaced, hwords, hend⟩ := ih htokens hshorter
      have hproper : Token.IsProper ⟨kind, String.ofList lead, String.ofList text, i + byteLength lead⟩ :=
        ⟨kind_ne_eof_of_isLexeme hlex, fun hempty => htext (String.ofList_eq_empty_iff.mp hempty), hlead⟩
      refine ⟨⟨by rw [utf8ByteSize_ofList], ?_⟩, List.forall_mem_cons.mpr ⟨hproper, hwords⟩, hend⟩
      rw [Token.source, String.utf8ByteSize_append, utf8ByteSize_ofList, utf8ByteSize_ofList, ← Nat.add_assoc]
      exact hplaced

end Scan

/-- **The tokens of a source partition it.** Scanning by byte positions cuts every source only between its
characters, and comes to the same tokens, or the same error. Where there are tokens they spell the source,
the offset of each is the number of bytes in front of its text, the end of the file is the last and only the
last, no other text is empty, and all that stands between the texts is blanks and whole comments. -/
theorem Tokens.ofSource_partition (source : String) :
    ByteScan.tokens source = ByteScan.whole (Tokens.ofSource source) ∧
      ∀ ts, Tokens.ofSource source = .ok ts →
        String.join (ts.toList.map fun t => t.lead ++ t.text) = source ∧
        (∀ front t back, ts.toList = front ++ t :: back →
          t.offset = (String.join (front.map fun u => u.lead ++ u.text) ++ t.lead).utf8ByteSize) ∧
        ∃ front eof, ts.toList = front ++ [eof] ∧ (∀ t ∈ front, t.IsProper) ∧ eof.IsEnd := by
  refine ⟨ByteScan.tokens_eq source, fun ts h => ?_⟩
  obtain ⟨hspell, _, _, htext⟩ := scannable_of_tokensUpTo h (Nat.lt_succ_self _)
  obtain ⟨hplaced, hwords, hend⟩ := placed_of_tokensUpTo h (Nat.lt_succ_self _)
  refine ⟨?_, fun front t back hsplit => ?_, ts.words, ts.eof, rfl, hwords, hend⟩
  · rw [← String.toList_inj, hspell]
    exact ts.toList_source htext
  · rw [hsplit] at hplaced
    rw [String.utf8ByteSize_append, ← Nat.zero_add (String.utf8ByteSize _)]
    exact hplaced.offset_eq

/-- A literal with a greater character behind its backslash, between a comment in bytes of two and three and
one that runs up to the end. -/
theorem Tokens.ofSource_partition_escaped :
    ∃ ts, Tokens.ofSource "/* é€ */ \"\\é\" // x" = .ok ts ∧
      ByteScan.tokens "/* é€ */ \"\\é\" // x" = ByteScan.whole (.ok ts) ∧
      String.join (ts.toList.map fun t => t.lead ++ t.text) = "/* é€ */ \"\\é\" // x" ∧
      ts.toList.map (·.offset) = [12, 22] := by
  have hok : Tokens.ofSource "/* é€ */ \"\\é\" // x" =
      .ok ⟨[⟨.string, "/* é€ */ ", "\"\\é\"", 12⟩], ⟨.eof, " // x", "", 22⟩⟩ := by decide +kernel
  obtain ⟨hbytes, htokens⟩ := Tokens.ofSource_partition "/* é€ */ \"\\é\" // x"
  obtain ⟨hspell, _⟩ := htokens _ hok
  exact ⟨_, hok, by rw [hbytes, hok], hspell, rfl⟩

end Migration
