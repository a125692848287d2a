import Mathlib.Data.List.Induction
import Migration.Proofs.Tree.Chains
import Migration.Proofs.Tree.Respelling

/-!
# Rows of tokens with other chains in them

A chain of names in an expression may have trivia around its dots (`ChainTokens`). Two rows are
rewordings of each other (`Reworded`) when they agree but for such chains after the same trivia. Where
the trivia inside the new chains are closed if those of the old ones were, a rewording of a scannable
row is scannable (`Reworded.scannable`).

A type declaration need not be readable itself for its text to be: it is enough that another one, which is,
is written with the same tokens (`ReadAs`).
-/

namespace Migration

open Scan (Scannable Alike WordAhead isClosed isWordPart)
open Token (word symbol)

/-! ### Chains -/

/-- The tokens of words divided by dots, the first a name after `lead`, with any trivia around the
dots. -/
inductive ChainTokens (lead : Trivia) : List Token → Prop
  | name {s : String} : isNameText s = true → ChainTokens lead [word lead s]
  | member {ts : List Token} {dot member : Trivia} {s : String} : ChainTokens lead ts →
      Scan.isWordText s.toList = true → ChainTokens lead (ts ++ [symbol dot ".", word member s])

namespace ChainTokens

variable {lead : Trivia} {ts : List Token}

/-- A chain starts with a name, whatever the trivia in front of it. -/
theorem exists_cons (h : ChainTokens lead ts) : ∃ s rest, isNameText s = true
    ∧ ts = word lead s :: rest ∧ ∀ other, ChainTokens other (word other s :: rest) := by
  induction h with
  | @name s hs => exact ⟨s, [], hs, rfl, fun _ => .name hs⟩
  | @member ts dot member s _ hs ih =>
    obtain ⟨first, rest, hfirst, rfl, hall⟩ := ih
    exact ⟨first, rest ++ [symbol dot ".", word member s], hfirst, rfl,
      fun other => .member (hall other) hs⟩

/-- A dotted name is a chain. -/
theorem dotted {ss : List String} (h : isChainText false ss = true) :
    ChainTokens lead (dottedTokens lead ss) := by
  cases ss with
  | nil => cases h
  | cons s ss =>
    obtain ⟨hs, hss⟩ := isChainText_cons.mp h
    have hwords := areSegmentTexts_words hss
    clear hss h
    induction ss using List.reverseRecOn with
    | nil => exact .name hs
    | append_singleton ss t ih =>
      obtain ⟨hss, ht⟩ := List.forall_mem_append.mp hwords
      rw [← List.cons_append, Expr.Chain.dottedTokens_concat (List.cons_ne_nil s ss)]
      exact .member (ih hss) (ht t List.mem_cons_self)

end ChainTokens

/-- No comment stays open behind the first token of the row. -/
def ClosedInside (ts : List Token) : Prop := ∀ t ∈ ts.tail, isClosed t.lead

theorem closedInside_append {ts us : List Token} (hne : ts ≠ []) :
    ClosedInside (ts ++ us) ↔ ClosedInside ts ∧ ∀ t ∈ us, isClosed t.lead := by
  cases ts with
  | nil => exact absurd rfl hne
  | cons t ts => exact List.forall_mem_append

theorem closedInside_dotted (lead : Trivia) (ss : List String) :
    ClosedInside (dottedTokens lead ss) := by
  cases ss with
  | nil => exact List.forall_mem_nil _
  | cons s ss =>
    intro t ht
    obtain ⟨_, _, ht⟩ := List.mem_flatMap.mp ht
    simp only [List.mem_cons, List.not_mem_nil, or_false] at ht
    rcases ht with rfl | rfl <;> exact Scan.isClosed_empty

/-- Closed trivia start with a character that ends every word. -/
theorem word_end_of_closed {cs next : List Char} (h : Scan.Closed .between cs)
    (hnext : ∀ c ∈ next.head?, isWordPart c = false) :
    ∀ c ∈ (cs ++ next).head?, isWordPart c = false := by
  cases h with
  | done => exact hnext
  | blank hc _ =>
    rintro c ⟨⟩
    rw [Bool.eq_false_iff]
    intro hpart
    rw [Scan.isBlank_eq_false hpart (by decide)] at hc
    cases hc
  | line _ =>
    rintro c ⟨⟩
    rfl
  | block _ =>
    rintro c ⟨⟩
    rfl

/-- **A chain is found again** when the trivia inside it are closed, in front of what cannot continue
its last word. -/
theorem ChainTokens.scannable_iff {lead : Trivia} {ts : List Token} (h : ChainTokens lead ts)
    {rest : List Token} {tail : List Char} : Scannable (ts ++ rest) tail ↔
      (∀ t ∈ ts, isClosed t.lead) ∧ Scannable rest tail
        ∧ ∀ c ∈ (spell rest ++ tail).head?, isWordPart c = false := by
  induction h generalizing rest with
  | @name s hs =>
    rw [List.forall_mem_singleton]
    exact and_congr_right fun _ => ⟨fun ⟨hcut, hrest⟩ => ⟨hrest, hcut.word_end⟩,
      fun ⟨hrest, hend⟩ => ⟨Scan.cuts_word (isWordText_of_isNameText hs) hend, hrest⟩⟩
  | @member ts dot member s _ hs ih =>
    rw [List.append_assoc, ih, List.forall_mem_append, List.forall_mem_cons,
      List.forall_mem_singleton, and_assoc]
    refine and_congr_right fun _ => ?_
    constructor
    · rintro ⟨⟨hdot, _, hmember, hcut, hrest⟩, _⟩
      exact ⟨⟨hdot, hmember⟩, hrest, hcut.word_end⟩
    · rintro ⟨⟨hdot, hmember⟩, hrest, hend⟩
      have hmark : Scan.Cuts (symbol dot ".").kind (symbol dot ".").text.toList
          (spell (word member s :: rest) ++ tail) := by
        rw [Token.symbol_kind, Token.symbol_text]
        exact Scan.cuts_mark (.inr rfl) _
      rw [List.cons_append, List.cons_append, List.nil_append]
      refine ⟨⟨hdot, hmark, hmember, Scan.cuts_word hs hend, hrest⟩, ?_⟩
      rw [spell_cons, List.append_assoc]
      refine word_end_of_closed hdot fun c hc => ?_
      rw [Token.symbol_text, List.append_assoc] at hc
      cases hc
      rfl

/-! ### Rewording -/

/-- Two rows that agree but for chains after the same trivia. The first flag tells whether a chain may
start at the front of the rows, which it may not right behind a number, the last one whether it may
start behind them. -/
inductive Reworded : Bool → List Token → List Token → Bool → Prop
  | nil {b : Bool} : Reworded b [] [] b
  | same {b e : Bool} {t : Token} {ts us : List Token} :
      Reworded (t.kind != .number) ts us e → Reworded b (t :: ts) (t :: us) e
  | chain {e : Bool} {lead : Trivia} {old new ts us : List Token} :
      ChainTokens lead old → ChainTokens lead new →
      (ClosedInside old → ClosedInside new) → Reworded true ts us e →
      Reworded true (old ++ ts) (new ++ us) e

namespace Reworded

variable {b e f : Bool} {ts us ts' us' : List Token}

theorem refl (b : Bool) (ts : List Token) : ∃ e, Reworded b ts ts e := by
  induction ts generalizing b with
  | nil => exact ⟨b, .nil⟩
  | cons t ts ih =>
    obtain ⟨e, h⟩ := ih (t.kind != .number)
    exact ⟨e, .same h⟩

theorem append (h : Reworded b ts us e) (h' : Reworded e ts' us' f) :
    Reworded b (ts ++ ts') (us ++ us') f := by
  induction h with
  | nil => exact h'
  | same _ ih => exact .same (ih h')
  | chain hold hnew hclosed _ ih =>
    rw [List.append_assoc, List.append_assoc]
    exact .chain hold hnew hclosed (ih h')

/-- Rows on both sides of a token that stays. -/
theorem around {t : Token} (h : Reworded b ts us e)
    (h' : Reworded (t.kind != .number) ts' us' f) :
    Reworded b (ts ++ t :: ts') (us ++ t :: us') f := h.append (.same h')

/-- The same row in front of both. -/
theorem before (ts : List Token) {t : Token} (h : Reworded (t.kind != .number) ts' us' e) :
    Reworded b (ts ++ t :: ts') (ts ++ t :: us') e := by
  obtain ⟨_, hts⟩ := refl b ts
  exact hts.around h

theorem prependLead (lead : Trivia) (h : Reworded b ts us e) :
    Reworded b (prependLead lead ts) (Migration.prependLead lead us) e := by
  cases h with
  | nil => exact .nil
  | same h => exact .same h
  | @chain _ l old new ts us hold hnew hclosed h =>
    obtain ⟨s, rest, _, rfl, hall⟩ := hold.exists_cons
    obtain ⟨s', rest', _, rfl, hall'⟩ := hnew.exists_cons
    exact .chain (hall (lead ++ l)) (hall' (lead ++ l)) hclosed h

theorem headBare (h : Reworded b ts us e) (hts : HeadBare ts) : HeadBare us := by
  cases h with
  | nil => exact hts
  | same _ => exact hts
  | @chain _ l old new ts us hold hnew _ _ =>
    obtain ⟨s, rest, _, rfl, _⟩ := hold.exists_cons
    obtain ⟨s', rest', _, rfl, _⟩ := hnew.exists_cons
    intro t ht
    cases ht
    exact hts (word l s) rfl

/-- **A rewording is scannable**, and it starts alike. -/
theorem scannable {tail : List Char} (h : Reworded b ts us e) (hts : Scannable ts tail) :
    Scannable us tail ∧ Alike b (spell ts ++ tail) (spell us ++ tail) := by
  induction h with
  | nil => exact ⟨hts, Alike.refl _ _⟩
  | @same b e t ts us _ ih =>
    obtain ⟨hlead, hcut, hrest⟩ := hts
    obtain ⟨hus, halike⟩ := ih hrest
    have hnumber : t.kind = .number → (t.kind != .number) = false := by
      intro hkind
      rw [hkind]
      rfl
    refine ⟨⟨hlead, hcut.alike halike hnumber, hus⟩, .inl ?_⟩
    obtain ⟨c, cs, htext, _⟩ := hcut.lexed
    rw [spell_cons, spell_cons, htext]
    cases t.lead.toList <;> rfl
  | @chain e lead old new ts us hold hnew hclosed _ ih =>
    obtain ⟨hleads, hrest, hend⟩ := hold.scannable_iff.mp hts
    obtain ⟨hus, halike⟩ := ih hrest
    have hend' := halike.end_of (fun _ _ => Scan.isWordPart_of_isWordStart) hend
    obtain ⟨s, more, hs, rfl, _⟩ := hold.exists_cons
    obtain ⟨s', more', hs', rfl, _⟩ := hnew.exists_cons
    obtain ⟨hlead, hmore⟩ := List.forall_mem_cons.mp hleads
    refine ⟨hnew.scannable_iff.mpr ⟨List.forall_mem_cons.mpr ⟨hlead, hclosed hmore⟩, hus, hend'⟩, ?_⟩
    -- Both chains start after the same trivia; without any, each starts with a letter.
    simp only [List.cons_append, spell_cons, List.append_assoc, Token.word_lead, Token.word_text]
    exact Alike.append _
      (.inr ⟨rfl, wordAhead_of_isNameText hs _, wordAhead_of_isNameText hs' _⟩)

end Reworded

/-- A respelling is a rewording. -/
theorem Respelled.reworded {n : Nat} {b b' e : Bool} {ts us : List Token}
    (h : Respelled n b ts us e) (hb : b = true → b' = true) :
    ∃ e', (e = true → e' = true) ∧ Reworded b' ts us e' := by
  induction h generalizing b' with
  | nil => exact ⟨b', hb, .nil⟩
  | @same _ _ t ts us _ ih =>
    have hopens : t.opens = true → (t.kind != .number) = true := fun h => (Bool.and_eq_true_iff.mp h).1
    obtain ⟨e', he, h⟩ := ih hopens
    exact ⟨e', he, .same h⟩
  | @name _ lead ss ss' ts us hss hss' _ _ _ ih =>
    obtain rfl := hb rfl
    obtain ⟨e', he, h⟩ := ih fun _ => rfl
    exact ⟨e', he, .chain (.dotted hss) (.dotted hss') (fun _ => closedInside_dotted lead ss') h⟩

/-! ### Types -/

namespace TypeDecl

/-- What a declaration is written with behind the trivia in front of it. -/
theorem exists_row (d : TypeDecl) : ∃ row, row ≠ [] ∧ d.tokens = prependLead d.lead row
    ∧ ∀ lead, TypeDecl.tokens { d with lead } = prependLead lead row := by
  obtain ⟨id, lead, modifiers, kindLead, kind, name, params, extending, implementing, body⟩ := d
  refine ⟨modifierTokens modifiers ++ (headerTokens kindLead kind name params extending implementing
    ++ body.tokens), by simp [headerTokens], ?_, fun lead => ?_⟩ <;> rw [TypeDecl.tokens]

theorem tokens_withLead {x y : TypeDecl} (hlead : y.lead = x.lead) (htokens : y.tokens = x.tokens)
    (lead : Trivia) : TypeDecl.tokens { y with lead } = TypeDecl.tokens { x with lead } := by
  obtain ⟨rowx, _, hselfx, hx⟩ := x.exists_row
  obtain ⟨rowy, _, hselfy, hy⟩ := y.exists_row
  rw [hselfx, hselfy, hlead, prependLead_inj] at htokens
  rw [hx, hy, htokens]

theorem spell_withLead (d : TypeDecl) (lead : Trivia) : spell (TypeDecl.tokens { d with lead })
    = lead.toList ++ spell (TypeDecl.tokens { d with lead := "" }) := by
  obtain ⟨row, hne, _, hrow⟩ := d.exists_row
  rw [hrow, hrow, spell_prependLead _ hne, prependLead_empty]

end TypeDecl

/-- The second types can be read, and they are written like the first, after the same trivia. -/
inductive ReadAs : List TypeDecl → List TypeDecl → Prop
  | nil : ReadAs [] []
  | cons {x y : TypeDecl} {xs ys : List TypeDecl} : y.WellFormed → y.lead = x.lead →
      y.tokens = x.tokens → ReadAs xs ys → ReadAs (x :: xs) (y :: ys)

namespace ReadAs

variable {xs ys : List TypeDecl}

theorem refl (h : ∀ d ∈ xs, d.WellFormed) : ReadAs xs xs := by
  induction xs with
  | nil => exact .nil
  | cons x xs ih =>
    obtain ⟨hx, hxs⟩ := List.forall_mem_cons.mp h
    exact .cons hx rfl rfl (ih hxs)

theorem wellFormed (h : ReadAs xs ys) : ∀ d ∈ ys, d.WellFormed := by
  induction h with
  | nil => exact List.forall_mem_nil _
  | cons hy _ _ _ ih => exact List.forall_mem_cons.mpr ⟨hy, ih⟩

theorem tokens_eq (h : ReadAs xs ys) :
    ys.flatMap TypeDecl.tokens = xs.flatMap TypeDecl.tokens := by
  induction h with
  | nil => rfl
  | cons _ _ htokens _ ih => rw [List.flatMap_cons, List.flatMap_cons, htokens, ih]

theorem head?_lead (h : ReadAs xs ys) : ys.head?.map (·.lead) = xs.head?.map (·.lead) := by
  cases h with
  | nil => rfl
  | cons _ hlead _ _ => exact congrArg some hlead

end ReadAs

end Migration
