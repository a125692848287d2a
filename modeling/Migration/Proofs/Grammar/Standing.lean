import Migration.Proofs.Grammar.Composed
import Migration.Proofs.Grammar.Reading

/-!
# Where a cursor stands

A cursor in a row of tokens stands at a place of the row (`Cursor.StandsAt`): the tokens ahead are those from
there on, but the first may be without its trivia. All operations on cursors keep to the row, and none goes
back (`Parser.Composed.standsAt`). So whatever a parser passes on its way is a place of the row, and whatever
it looks at from there is a token of the row (`Parser.Passes.standsAt`, `Cursor.StandsAt.peekAt`).
-/

namespace Migration

/-- The cursor at a place of the row, in front of the trivia there. -/
def Tokens.cursorAt (ts : Tokens) (i : Nat) (nextId : NodeId) : Cursor :=
  ⟨ts.words.drop i, ts.eof, nextId⟩

namespace Cursor

variable {c : Cursor} {ts : Tokens} {i : Nat}

/-! ### Places -/

/-- The cursor stands at the `i`-th place of the row, the last of which is the end of the file. The trivia
there may be taken. -/
structure StandsAt (c : Cursor) (ts : Tokens) (i : Nat) : Prop where
  le : i ≤ ts.words.length
  ahead : ∃ nextId, c = ts.cursorAt i nextId ∨ c = (ts.cursorAt i nextId).stripLead

theorem stripLead_stripLead (c : Cursor) : c.stripLead.stripLead = c.stripLead := by
  obtain ⟨rest, eof, nextId⟩ := c
  cases rest <;> rfl

theorem advance_stripLead (c : Cursor) : c.stripLead.advance = c.advance := by
  obtain ⟨rest, eof, nextId⟩ := c
  cases rest <;> rfl

theorem length_stripLead (c : Cursor) : c.stripLead.rest.length = c.rest.length := by
  obtain ⟨rest, eof, nextId⟩ := c
  cases rest <;> rfl

theorem eof_stripLead (c : Cursor) : c.stripLead.eof.bare = c.eof.bare := by
  obtain ⟨rest, eof, nextId⟩ := c
  cases rest <;> rfl

theorem bare_peekAt_stripLead (c : Cursor) (n : Nat) : (c.stripLead.peekAt n).bare = (c.peekAt n).bare := by
  obtain ⟨rest, eof, nextId⟩ := c
  cases rest with
  | nil => rfl
  | cons t rest => cases n <;> rfl

theorem standsAt_ofTokens (ts : Tokens) : (ofTokens ts).StandsAt ts 0 :=
  ⟨Nat.zero_le _, 0, .inl rfl⟩

theorem StandsAt.fresh (h : c.StandsAt ts i) (nextId : NodeId) :
    ({ c with nextId } : Cursor).StandsAt ts i := by
  obtain ⟨hle, id, rfl | rfl⟩ := h
  · exact ⟨hle, nextId, .inl rfl⟩
  · refine ⟨hle, nextId, .inr ?_⟩
    rw [Tokens.cursorAt, Tokens.cursorAt, stripLead, stripLead]
    cases ts.words.drop i <;> rfl

theorem StandsAt.stripLead (h : c.StandsAt ts i) : c.stripLead.StandsAt ts i := by
  obtain ⟨hle, id, rfl | rfl⟩ := h
  · exact ⟨hle, id, .inr rfl⟩
  · exact ⟨hle, id, .inr (stripLead_stripLead _)⟩

/-- A step leads to the next place; from the last one there is none. -/
theorem StandsAt.advance (h : c.StandsAt ts i) : ∃ j, i ≤ j ∧ c.advance.StandsAt ts j := by
  obtain ⟨hle, id, hc⟩ := h
  have hadvance : c.advance = (ts.cursorAt i id).advance := by
    rcases hc with rfl | rfl
    · rfl
    · exact advance_stripLead _
  rw [hadvance]
  rcases Nat.lt_or_eq_of_le hle with hlt | rfl
  · refine ⟨i + 1, Nat.le_succ i, hlt, id, .inl ?_⟩
    rw [Cursor.advance, Tokens.cursorAt, List.drop_eq_getElem_cons hlt]
    rfl
  · refine ⟨ts.words.length, Nat.le_refl _, Nat.le_refl _, id, .inr ?_⟩
    rw [Cursor.advance, Cursor.stripLead, Tokens.cursorAt, List.drop_length]

/-- How many tokens are ahead tells the place. -/
theorem StandsAt.length_add (h : c.StandsAt ts i) : c.rest.length + i = ts.words.length := by
  obtain ⟨hle, id, hc⟩ := h
  have hlength : c.rest.length = (ts.words.drop i).length := by
    rcases hc with rfl | rfl
    · rfl
    · exact length_stripLead _
  rw [hlength, List.length_drop]
  omega

/-- The end of the file is still the one of the row. -/
theorem StandsAt.bare_eof (h : c.StandsAt ts i) : c.eof.bare = ts.eof.bare := by
  obtain ⟨-, id, rfl | rfl⟩ := h
  · rfl
  · exact eof_stripLead _

/-- **What is looked at is a token of the row**: the one so many places ahead, or else the last. -/
theorem StandsAt.peekAt (h : c.StandsAt ts i) (n : Nat) :
    ∃ t, ts.toList[min (i + n) ts.words.length]? = some t ∧ (c.peekAt n).bare = t.bare := by
  obtain ⟨-, id, hc⟩ := h
  have hpeek : (c.peekAt n).bare = ((ts.cursorAt i id).peekAt n).bare := by
    rcases hc with rfl | rfl
    · rfl
    · exact bare_peekAt_stripLead _ n
  rw [hpeek, Cursor.peekAt, Tokens.cursorAt, List.getD_eq_getElem?_getD, List.getElem?_drop, Tokens.toList]
  rcases Nat.lt_or_ge (i + n) ts.words.length with hlt | hge
  · refine ⟨ts.words[i + n], ?_, ?_⟩
    · rw [Nat.min_eq_left (Nat.le_of_lt hlt), List.getElem?_append_left hlt, List.getElem?_eq_getElem hlt]
    · rw [List.getElem?_eq_getElem hlt, Option.getD_some]
  · refine ⟨ts.eof, ?_, ?_⟩
    · rw [Nat.min_eq_right hge, List.getElem?_append_right (Nat.le_refl _), Nat.sub_self]
      rfl
    · rw [List.getElem?_eq_none hge, Option.getD_none]

/-- The token at the cursor is the end of the row when nothing is ahead, and else one with a text. -/
theorem StandsAt.peek_cases (h : c.StandsAt ts i) :
    (c.atEnd = true ∧ c.peek.bare = ts.eof.bare)
      ∨ (c.atEnd = false ∧ ∃ t ∈ ts.words, c.peek.bare = t.bare) := by
  obtain ⟨-, id, hc⟩ := h
  rw [Tokens.cursorAt] at hc
  cases hdrop : ts.words.drop i with
  | nil =>
    rw [hdrop] at hc
    rcases hc with rfl | rfl
    · exact .inl ⟨rfl, rfl⟩
    · exact .inl ⟨rfl, rfl⟩
  | cons t rest =>
    have ht : t ∈ ts.words := List.mem_of_mem_drop (hdrop ▸ List.mem_cons_self)
    rw [hdrop] at hc
    rcases hc with rfl | rfl
    · exact .inr ⟨rfl, t, ht, rfl⟩
    · exact .inr ⟨rfl, t, ht, rfl⟩

end Cursor

namespace Parser

variable {α β : Type} {ts : Tokens} {i : Nat}

/-! ### Runs -/

/-- **Whatever is composed of operations on the cursor keeps to the row, and goes forward.** -/
theorem Composed.standsAt {p : Parser α} (hp : Composed p) {c c' : Cursor} {a : α}
    (hc : c.StandsAt ts i) (hrun : p c = .ok (a, c')) : ∃ j, i ≤ j ∧ c'.StandsAt ts j := by
  induction hp generalizing c c' i with
  | pure b =>
    obtain ⟨rfl, rfl⟩ := pure_ok.mp hrun
    exact ⟨i, Nat.le_refl i, hc⟩
  | bind hp hf ihp ihf =>
    obtain ⟨b, d, hb, hrun⟩ := bind_ok.mp hrun
    obtain ⟨j, hij, hd⟩ := ihp hc hb
    obtain ⟨k, hjk, hc'⟩ := ihf b hd hrun
    exact ⟨k, Nat.le_trans hij hjk, hc'⟩
  | look hf ih => exact ih c hc hrun
  | fresh =>
    cases hrun
    exact ⟨i, Nat.le_refl i, hc.fresh _⟩
  | bump =>
    cases hrun
    exact hc.advance
  | takeLead =>
    cases hrun
    exact ⟨i, Nat.le_refl i, hc.stripLead⟩
  | unexpected expected => cases hrun
  | unsupported what => cases hrun

/-- Running from the first cursor, the parser passes the second: it starts there, or a part of it does. -/
inductive Passes : {α : Type} → Parser α → Cursor → Cursor → Prop
  | start {α : Type} (p : Parser α) (c : Cursor) : Passes p c c
  | first {α β : Type} {p : Parser α} {f : α → Parser β} {c d : Cursor} (h : Passes p c d) :
    Passes (p >>= f) c d
  | second {α β : Type} {p : Parser α} {f : α → Parser β} {c c' d : Cursor} {a : α} (hp : Composed p)
    (hrun : p c = .ok (a, c')) (h : Passes (f a) c' d) : Passes (p >>= f) c d
  | look {α : Type} {f : Cursor → Parser α} {c d : Cursor} (h : Passes (f c) c d) :
    Passes (fun c => f c c) c d

/-- **What is passed is a place of the row.** -/
theorem Passes.standsAt {p : Parser α} {c d : Cursor} (h : Passes p c d) (hc : c.StandsAt ts i) :
    ∃ j, i ≤ j ∧ d.StandsAt ts j := by
  induction h generalizing i with
  | start p c => exact ⟨i, Nat.le_refl i, hc⟩
  | first h ih => exact ih hc
  | second hp hrun h ih =>
    obtain ⟨j, hij, hc'⟩ := hp.standsAt hc hrun
    obtain ⟨k, hjk, hd⟩ := ih hc'
    exact ⟨k, Nat.le_trans hij hjk, hd⟩
  | look h ih => exact ih hc

end Parser

end Migration
