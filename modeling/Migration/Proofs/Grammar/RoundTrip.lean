import Migration.Proofs.Grammar.CompleteDeclarations

/-!
# Parsing and printing

The scanner cuts a source into tokens that spell it, and the productions give a tree that is written
with exactly the tokens that were read. So the text of a tree is the source it was read from
(`print_of_parse`), every blank and every comment included. `parse_sound` keeps what else is known of
such a tree: it is well formed, and its tokens are found again when its text is scanned.

These two properties are all it takes for the way back: the text of such a tree is a source that is
read as the same tree, up to the numbers of its nodes (`parse_of_print`), whether the tree was read
from a source or not.
-/

namespace Migration

open Scan (Scannable)

theorem Scan.Scannable.map_unplaced {ts : List Token} {tail : List Char} (h : Scannable ts tail) :
    Scannable (ts.map Token.unplaced) tail := by
  induction ts with
  | nil => exact h
  | cons t ts ih =>
    obtain ⟨hlead, hcut, hrest⟩ := h
    refine ⟨hlead, ?_, ih hrest⟩
    rw [spell_map_unplaced]
    exact hcut

theorem Scan.Scannable.lexical {ts : List Token} {tail : List Char} (h : Scannable ts tail) :
    ∀ t ∈ ts, t.Lexical := by
  induction ts with
  | nil =>
    intro t ht
    cases ht
  | cons u us ih =>
    obtain ⟨_, hcut, hrest⟩ := h
    intro t ht
    rcases List.mem_cons.mp ht with rfl | ht
    · exact hcut.isLexeme
    · exact ih hrest t ht

/-- What is known of a tree that was read from a source. -/
theorem parse_sound {source : String} {m : Module} (h : Module.parse source = .ok m) :
    source.toList = spell m.tokens ++ m.eof.toList ∧ Scannable m.tokens m.eof.toList
      ∧ m.WellFormed := by
  obtain ⟨ts, hscan, htree⟩ := bind_eq_ok.mp h
  obtain ⟨hspell, hrow, hkind, htext⟩ := Scan.scannable_of_tokensUpTo hscan (Nat.lt_succ_self _)
  obtain ⟨htokens, heof, hwf⟩ := ofTokens_sound hrow.lexical hkind htext htree
  rw [← htokens, heof, spell_map_unplaced]
  exact ⟨hspell, hrow.map_unplaced, hwf⟩

/-- **Parsing is lossless.** A tree is written exactly like the source it was read from. -/
theorem print_of_parse {source : String} {m : Module} (h : Module.parse source = .ok m) :
    m.print = source := by
  obtain ⟨hspell, _⟩ := parse_sound h
  rw [← String.toList_inj, Module.toList_print, hspell]

/-- A source with comments, spaced tokens, type arguments and a number behind its sign. -/
theorem print_of_parse_commented :
    ∃ m, Module.parse "package p ; // c\n class A < T > { @X int x = -1 + a . b ( ) ; /* d */ } \n"
        = .ok m ∧
      m.print = "package p ; // c\n class A < T > { @X int x = -1 + a . b ( ) ; /* d */ } \n" := by
  have hok : (Module.parse
      "package p ; // c\n class A < T > { @X int x = -1 + a . b ( ) ; /* d */ } \n").isOk = true := by
    decide +kernel
  cases h : Module.parse
      "package p ; // c\n class A < T > { @X int x = -1 + a . b ( ) ; /* d */ } \n" with
  | error e =>
    rw [h] at hok
    cases hok
  | ok m => exact ⟨m, rfl, print_of_parse h⟩

/-- **The text of a tree is read as the tree**, when the tree is well formed and its tokens are found
again in it. -/
theorem parse_of_print {m : Module} (hwf : m.WellFormed)
    (hscan : Scannable m.tokens m.eof.toList) :
    ∃ m', Module.parse m.print = .ok m' ∧ m'.unnumbered = m.unnumbered := by
  obtain ⟨ts, hrun, hwords, heof⟩ :=
    Scan.tokensUpTo_spell hscan _ 0 (Nat.lt_succ_self (spell m.tokens ++ m.eof.toList).length)
  rw [← Module.toList_print] at hrun
  rw [m.unplaced_tokens] at hwords
  have hat : (Cursor.ofTokens ts).At m.tokens m.eof := by
    refine ⟨hwords, by rw [Cursor.ofTokens, heof, String.ofList_toList], fun t ht => ?_⟩
    exact hscan.lexical t.unplaced (by rw [← hwords]; exact List.mem_map_of_mem ht)
  obtain ⟨m', c', hmodule, hsame⟩ := Parser.module_run hwf hat
  refine ⟨m', bind_eq_ok.mpr ⟨ts, hrun, ?_⟩, hsame⟩
  rw [Module.ofTokens, hmodule]
  rfl

end Migration
