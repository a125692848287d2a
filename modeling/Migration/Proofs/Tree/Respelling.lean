import Migration.Proofs.Token.Cutting
import Migration.Proofs.Tree.Names

/-!
# Rows of tokens with other names in them

Two rows are respellings of each other (`Respelled`) when they agree but for dotted names: where one
has a name, the other may have another name after the same trivia. A name is exchanged as a whole,
so none starts behind a dot, and none behind a number, which would take it for its own digits.

* `Respelled.scannable`: a respelling of a scannable row is scannable.
* `Respelled.looksVariable`: a respelling of a row that starts like a local variable starts like one,
  when simple names are left alone.
-/

namespace Migration

open Token (word symbol)
open Scan (Scannable Alike WordAhead isClosed isWordPart)

/-! ### Dotted names -/

/-- A name starts with a letter and not with an annotation's mark. -/
theorem wordAhead_of_isNameText {s : String} (h : isNameText s = true) (rest : List Char) :
    WordAhead (s.toList ++ rest) := by
  rw [isNameText, Bool.and_eq_true, Token.isName, Bool.and_eq_true, Bool.not_eq_true'] at h
  obtain ⟨c, cs, htext, hc, _⟩ := Scan.first_of_isWordText h.1
  refine ⟨c, by rw [htext]; rfl, ?_⟩
  have hmark : (c == '@') = false := by
    have := h.2.2
    rw [Token.isMarker, Token.word_text, htext] at this
    simpa using this
  rw [hmark, Bool.or_false] at hc
  exact hc

/-- A dotted name is found again in front of what cannot continue its last word. -/
theorem scannable_dotted {lead : Trivia} {ss : List String} {ts : List Token} {tail : List Char}
    (hlead : isClosed lead) (hne : ss ≠ [])
    (hwords : ∀ s ∈ ss, Scan.isWordText s.toList = true)
    (hend : ∀ c ∈ (spell ts ++ tail).head?, isWordPart c = false) (hts : Scannable ts tail) :
    Scannable (dottedTokens lead ss ++ ts) tail := by
  induction ss generalizing lead with
  | nil => exact absurd rfl hne
  | cons s ss ih =>
    obtain ⟨hs, hss⟩ := List.forall_mem_cons.mp hwords
    cases ss with
    | nil => exact ⟨hlead, Scan.cuts_word hs hend, hts⟩
    | cons t ss =>
      refine ⟨hlead, Scan.cuts_word hs ?_, Scan.isClosed_empty, Scan.cuts_mark (.inr rfl) _,
        ih Scan.isClosed_empty (List.cons_ne_nil t ss) hss⟩
      intro c hc
      cases hc
      rfl

theorem scannable_dotted_inv {lead : Trivia} {ss : List String} {ts : List Token}
    {tail : List Char} (hne : ss ≠ []) (h : Scannable (dottedTokens lead ss ++ ts) tail) :
    isClosed lead ∧ Scannable ts tail ∧ ∀ c ∈ (spell ts ++ tail).head?, isWordPart c = false := by
  induction ss generalizing lead with
  | nil => exact absurd rfl hne
  | cons s ss ih =>
    cases ss with
    | nil =>
      obtain ⟨hlead, hcut, hts⟩ := h
      exact ⟨hlead, hts, hcut.word_end⟩
    | cons t ss =>
      obtain ⟨hlead, _, _, _, hrest⟩ := h
      exact ⟨hlead, (ih (List.cons_ne_nil t ss) hrest).2⟩

/-! ### Respelling -/

/-- A dotted name may start behind the token: it is no number and no dot. -/
def Token.opens (t : Token) : Bool := t.kind != .number && t.text != "."

/-- Two rows that agree but for dotted names of `n` or more segments. The first flag tells whether a
name may start at the front of the rows, the last one whether it may start behind them. -/
inductive Respelled (n : Nat) : Bool → List Token → List Token → Bool → Prop
  | nil {b : Bool} : Respelled n b [] [] b
  | same {b e : Bool} {t : Token} {ts us : List Token} :
      Respelled n t.opens ts us e → Respelled n b (t :: ts) (t :: us) e
  | name {e : Bool} {lead : Trivia} {ss ss' : List String} {ts us : List Token} :
      isChainText false ss = true → isChainText false ss' = true →
      n ≤ ss.length → n ≤ ss'.length → Respelled n true ts us e →
      Respelled n true (dottedTokens lead ss ++ ts) (dottedTokens lead ss' ++ us) e

namespace Respelled

variable {n : Nat} {b e f : Bool} {ts us ts' us' : List Token}

theorem refl (n : Nat) (b : Bool) (ts : List Token) : ∃ e, Respelled n b ts ts e := by
  induction ts generalizing b with
  | nil => exact ⟨b, .nil⟩
  | cons t ts ih =>
    obtain ⟨e, h⟩ := ih t.opens
    exact ⟨e, .same h⟩

theorem symm (h : Respelled n b ts us e) : Respelled n b us ts e := by
  induction h with
  | nil => exact .nil
  | same _ ih => exact .same ih
  | name hss hss' hn hn' _ ih => exact .name hss' hss hn' hn ih

theorem append (h : Respelled n b ts us e) (h' : Respelled n e ts' us' f) :
    Respelled n b (ts ++ ts') (us ++ us') f := by
  induction h with
  | nil => exact h'
  | same _ ih => exact .same (ih h')
  | name hss hss' hn hn' _ ih =>
    rw [List.append_assoc, List.append_assoc]
    exact .name hss hss' hn hn' (ih h')

theorem mono {m : Nat} (hmn : m ≤ n) (h : Respelled n b ts us e) : Respelled m b ts us e := by
  induction h with
  | nil => exact .nil
  | same _ ih => exact .same ih
  | name hss hss' hn hn' _ ih => exact .name hss hss' (hmn.trans hn) (hmn.trans hn') ih

/-- Rows on both sides of a token that stays. -/
theorem around {t : Token} (h : Respelled n b ts us e) (h' : Respelled n t.opens ts' us' f) :
    Respelled n b (ts ++ t :: ts') (us ++ t :: us') f := h.append (.same h')

/-- The same row in front of both. -/
theorem before (ts : List Token) {t : Token} (h : Respelled n t.opens ts' us' e) :
    Respelled n b (ts ++ t :: ts') (ts ++ t :: us') e := by
  obtain ⟨_, hts⟩ := refl n b ts
  exact hts.around h

theorem prependLead (lead : Trivia) (h : Respelled n b ts us e) :
    Respelled n b (prependLead lead ts) (Migration.prependLead lead us) e := by
  cases h with
  | nil => exact .nil
  | same h => exact .same h
  | @name _ l ss ss' ts us hss hss' hn hn' h =>
    have hlead {rs : List String} (hrs : isChainText false rs = true) (more : List Token) :
        Migration.prependLead lead (dottedTokens l rs ++ more)
          = dottedTokens (lead ++ l) rs ++ more := by
      cases rs with
      | nil => cases hrs
      | cons r rs => rfl
    rw [hlead hss, hlead hss']
    exact .name hss hss' hn hn' h

theorem headBare (h : Respelled n b ts us e) (hts : HeadBare ts) : HeadBare us := by
  cases h with
  | nil => exact hts
  | same _ => exact hts
  | @name _ l ss ss' ts us hss hss' _ _ _ =>
    cases ss with
    | nil => cases hss
    | cons s ss =>
      cases ss' with
      | nil => cases hss'
      | cons s' ss' =>
        intro t ht
        cases ht
        exact hts (word l s) rfl

/-- **A respelling is scannable**, and it starts alike. -/
theorem scannable {tail : List Char} (h : Respelled n b ts us e) (hts : Scannable ts tail) :
    Scannable us tail ∧ Alike b (spell ts ++ tail) (spell us ++ tail) := by
  induction h with
  | nil => exact ⟨hts, Alike.refl _ _⟩
  | @same b e t ts us _ ih =>
    obtain ⟨hlead, hcut, hrest⟩ := hts
    obtain ⟨hus, halike⟩ := ih hrest
    have hnumber : t.kind = .number → t.opens = false := by
      intro hkind
      rw [Token.opens, hkind]
      rfl
    refine ⟨⟨hlead, hcut.alike halike hnumber, hus⟩, .inl ?_⟩
    obtain ⟨c, cs, htext, _⟩ := hcut.lexed
    rw [spell_cons, spell_cons, htext]
    cases t.lead.toList <;> rfl
  | @name e lead ss ss' ts us hss hss' _ _ _ ih =>
    obtain ⟨hlead, hrest, hend⟩ := scannable_dotted_inv (isChainText_ne_nil hss) hts
    obtain ⟨hus, halike⟩ := ih hrest
    have hend' := halike.end_of (fun _ _ => Scan.isWordPart_of_isWordStart) hend
    refine ⟨scannable_dotted hlead (isChainText_ne_nil hss') (isChainText_words hss') hend' hus, ?_⟩
    -- Both names start after the same trivia; without any, each starts with a letter.
    have hstart {rs : List String} (hrs : isChainText false rs = true) (more : List Token) :
        ∃ s rest, isNameText s = true
          ∧ spell (dottedTokens lead rs ++ more) ++ tail = lead.toList ++ (s.toList ++ rest) := by
      cases rs with
      | nil => cases hrs
      | cons r rs =>
        exact ⟨r, spell (dotTokens rs ++ more) ++ tail, (isChainText_cons.mp hrs).1,
          by simp [dottedTokens]⟩
    obtain ⟨s, rest, hs, hspell⟩ := hstart hss ts
    obtain ⟨s', rest', hs', hspell'⟩ := hstart hss' us
    rw [hspell, hspell']
    exact Alike.append _
      (.inr ⟨rfl, wordAhead_of_isNameText hs rest, wordAhead_of_isNameText hs' rest'⟩)

/-! ### Taking respellings apart -/

/-- What stands in the place of one token: the token itself, or a name in the place of the name that
starts with it. -/
theorem cons_inv {t : Token} (h : Respelled n b ts (t :: us) e) :
    (∃ ts', ts = t :: ts' ∧ Respelled n t.opens ts' us e) ∨
    b = true ∧ ∃ lead s ss rs ts' us', t = word lead s ∧ isChainText false (s :: ss) = true
      ∧ n ≤ ss.length + 1 ∧ us = dotTokens ss ++ us' ∧ isChainText false rs = true
      ∧ ts = dottedTokens lead rs ++ ts' ∧ Respelled n true ts' us' e := by
  generalize hrow : t :: us = row at h
  cases h with
  | nil => cases hrow
  | same h =>
    cases hrow
    exact .inl ⟨_, rfl, h⟩
  | @name _ lead rs ss ts' us' hrs hss _ hn h =>
    cases ss with
    | nil => cases hss
    | cons s ss =>
      cases hrow
      exact .inr ⟨rfl, lead, s, ss, rs, ts', us', rfl, hss, hn, rfl, hrs, rfl, h⟩

theorem symbol_inv {lead : Trivia} {text : String}
    (h : Respelled n b ts (symbol lead text :: us) e) :
    ∃ ts', ts = symbol lead text :: ts' ∧ Respelled n (symbol lead text).opens ts' us e := by
  rcases h.cons_inv with h | ⟨_, _, _, _, _, _, _, ht, _⟩
  · exact h
  · cases ht

/-- Behind the first segment of a name nothing is exchanged. -/
theorem dots_inv {ss : List String} (h : Respelled n b ts (dotTokens ss ++ us) e) :
    ∃ ts' b', ts = dotTokens ss ++ ts' ∧ Respelled n b' ts' us e := by
  induction ss generalizing b ts with
  | nil => exact ⟨ts, b, rfl, h⟩
  | cons s ss ih =>
    have hrow : Respelled n b ts (symbol "" "." :: word "" s :: (dotTokens ss ++ us)) e := h
    obtain ⟨ts₁, rfl, hword⟩ := hrow.symbol_inv
    rcases hword.cons_inv with ⟨ts₂, rfl, hdots⟩ | ⟨hopens, _⟩
    · obtain ⟨ts', b', rfl, hrest⟩ := ih hdots
      exact ⟨ts', b', rfl, hrest⟩
    · cases hopens

/-- Where two rows start with names, and no dot follows the second one, the first name is the start
of the second. -/
theorem dottedTokens_append_eq {l l' : Trivia} {as bs : List String} {us vs : List Token}
    (has : as ≠ []) (hbs : bs ≠ []) (hdot : vs.head? ≠ some (symbol "" "."))
    (h : dottedTokens l as ++ us = dottedTokens l' bs ++ vs) :
    l = l' ∧ ∃ rest, bs = as ++ rest ∧ us = dotTokens rest ++ vs := by
  induction as generalizing l l' bs with
  | nil => exact absurd rfl has
  | cons a as ih =>
    cases bs with
    | nil => exact absurd rfl hbs
    | cons b bs =>
      cases as with
      | nil =>
        cases h
        exact ⟨rfl, bs, rfl, rfl⟩
      | cons a' as =>
        cases bs with
        | nil =>
          cases h
          exact absurd rfl hdot
        | cons b' bs =>
          obtain ⟨hhead, htail⟩ := List.cons.inj h
          cases hhead
          obtain ⟨_, rest, hrest, hus⟩ :=
            ih (List.cons_ne_nil a' as) (List.cons_ne_nil b' bs) (List.cons.inj htail).2
          exact ⟨rfl, rest, by rw [hrest]; rfl, hus⟩

/-- In the place of a whole name stands a name. -/
theorem dotted_inv {lead : Trivia} {ss : List String}
    (h : Respelled n b ts (dottedTokens lead ss ++ us) e)
    (hss : isChainText false ss = true) (hdot : us.head? ≠ some (symbol "" ".")) :
    ∃ rs ts' b', ts = dottedTokens lead rs ++ ts' ∧ isChainText false rs = true
      ∧ Respelled n b' ts' us e := by
  cases ss with
  | nil => cases hss
  | cons s ss =>
    have hrow : Respelled n b ts (word lead s :: (dotTokens ss ++ us)) e := h
    rcases hrow.cons_inv with ⟨ts₁, rfl, hdots⟩
      | ⟨_, l, r, rs', rs, ts₁, us₁, hword, _, _, hus, hrs, rfl, hdots⟩
    · obtain ⟨ts', b', rfl, hrest⟩ := hdots.dots_inv
      exact ⟨s :: ss, ts', b', rfl, hss, hrest⟩
    · cases hword
      obtain ⟨_, rest, hrest, rfl⟩ := dottedTokens_append_eq (List.cons_ne_nil s rs')
        (List.cons_ne_nil s ss) hdot (congrArg (List.cons (word lead s)) hus.symm)
      obtain ⟨ts', b', rfl, hrest'⟩ := hdots.dots_inv
      refine ⟨rs ++ rest, ts', b', ?_, ?_, hrest'⟩
      · cases rs with
        | nil => cases hrs
        | cons r rs => simp [dottedTokens, dotTokens]
      · rw [hrest] at hss
        exact isChainText_append (isChainText_mono (by simp) hrs)
          (areSegmentTexts_of_isChainText_append (List.cons_ne_nil s rs') hss)

end Respelled

/-! ### Types and variables -/

theorem typeHead_inv {n : Nat} {b e : Bool} {ts us : List Token} {lead : Trivia} {name : String}
    (hname : isTypeText name = true) (hdot : us.head? ≠ some (symbol "" "."))
    (h : Respelled n b ts (typeHeadTokens lead name ++ us) e) :
    ∃ other ts' b', ts = typeHeadTokens lead other ++ ts' ∧ isTypeText other = true
      ∧ (other = "?" ↔ name = "?") ∧ Respelled n b' ts' us e := by
  by_cases hany : name = "?"
  · subst hany
    obtain ⟨ts', rfl, hrest⟩ := Respelled.symbol_inv h
    exact ⟨"?", ts', _, rfl, rfl, Iff.rfl, hrest⟩
  · rw [isTypeText, beq_false_of_ne hany, Bool.false_or, isDottedText_eq] at hname
    rw [typeHeadTokens, if_neg hany, nameTokens] at h
    obtain ⟨rs, ts', b', rfl, hrs, hrest⟩ := h.dotted_inv hname hdot
    have hsegments := segments_ofSegments_of_isChainText hrs
    have hother : isDottedText false (Name.ofSegments rs) = true := by
      rw [isDottedText_eq, hsegments]
      exact hrs
    have hne := ne_any_of_isDottedText hother
    refine ⟨Name.ofSegments rs, ts', b', ?_, ?_, iff_of_false hne hany, hrest⟩
    · rw [typeHeadTokens, if_neg hne, nameTokens, hsegments]
    · rw [isTypeText, hother, Bool.or_true]

theorem head?_symbol_ne {lead : Trivia} {text : String} {ts : List Token}
    (h : text ≠ ".") :
    (symbol lead text :: ts).head? ≠ some (symbol "" ".") := by
  intro hhead
  cases hhead
  exact h rfl

mutual

/-- In the place of a type stands a type. -/
theorem TypeName.respelled_inv {n : Nat} {e : Bool} {us : List Token} :
    (t : TypeName) → t.WellFormed → us.head? ≠ some (symbol "" ".") → {b : Bool} →
      {ts : List Token} →
      Respelled n b ts (t.tokens ++ us) e →
      ∃ u ts' b', ts = TypeName.tokens u ++ ts' ∧ u.WellFormed ∧ u.isAny = t.isAny
        ∧ Respelled n b' ts' us e
  | ⟨_, lead, name, none, resolved⟩, hwf, hdot, _, _, h => by
    obtain ⟨other, ts', b', rfl, hother, hany, hrest⟩ := typeHead_inv hwf.1 hdot h
    refine ⟨⟨0, lead, other, none, none⟩, ts', b', rfl, ⟨hother, rfl⟩, ?_, hrest⟩
    rw [TypeName.isAny, TypeName.isAny, Bool.eq_iff_iff]
    simp [hany]
  | ⟨_, lead, name, some ⟨id, ⟨opened, items, closed⟩⟩, resolved⟩, hwf, hdot, _, _, h => by
    rw [TypeName.tokens, List.append_assoc] at h
    obtain ⟨other, ts₁, b₁, rfl, hother, hany, hargs⟩ :=
      typeHead_inv hwf.1 (head?_symbol_ne (by decide)) h
    obtain ⟨a, ts', b', rfl, ha, hrest⟩ :=
      TypeArguments.respelled_inv ⟨id, ⟨opened, items, closed⟩⟩ hwf.2.2 hargs
    refine ⟨⟨0, lead, other, some a, none⟩, ts', b', ?_, ⟨hother, rfl, ha⟩, ?_, hrest⟩
    · rw [TypeName.tokens, List.append_assoc]
    · rw [TypeName.isAny, TypeName.isAny]
      simp

theorem TypeArguments.respelled_inv {n : Nat} {e : Bool} {us : List Token} :
    (a : TypeArguments) → a.WellFormed → {b : Bool} → {ts : List Token} →
      Respelled n b ts (a.tokens ++ us) e →
      ∃ a' ts' b', ts = TypeArguments.tokens a' ++ ts' ∧ a'.WellFormed ∧ Respelled n b' ts' us e
  | ⟨_, ⟨opened, items, closed⟩⟩, hwf, _, _, h => by
    rw [TypeArguments.tokens, List.append_assoc, List.cons_append] at h
    obtain ⟨ts₁, rfl, hrow⟩ := h.symbol_inv
    obtain ⟨items', ts₂, b₂, rfl, hitems, _, hclose⟩ :=
      TypeName.respelledAll_inv items hwf (head?_symbol_ne (by decide)) hrow
    obtain ⟨ts', rfl, hrest⟩ := Respelled.symbol_inv hclose
    refine ⟨⟨0, ⟨opened, items', closed⟩⟩, ts', _, ?_, hitems, hrest⟩
    rw [TypeArguments.tokens, List.append_assoc]
    rfl

theorem TypeName.respelledAll_inv {n : Nat} {e : Bool} {us : List Token} :
    (ps : List (Padded TypeName)) → TypeName.WellFormedAll ps → us.head? ≠ some (symbol "" ".") →
      {b : Bool} → {ts : List Token} → Respelled n b ts (TypeName.tokensAll ps ++ us) e →
      ∃ qs ts' b', ts = TypeName.tokensAll qs ++ ts' ∧ TypeName.WellFormedAll qs
        ∧ (qs = [] ↔ ps = []) ∧ Respelled n b' ts' us e
  | [], _, _, b, ts, h => ⟨[], ts, b, rfl, trivial, Iff.rfl, h⟩
  | [⟨t, _⟩], hwf, hdot, _, _, h => by
    obtain ⟨u, ts', b', rfl, hu, _, hrest⟩ := TypeName.respelled_inv t hwf.1 hdot h
    exact ⟨[⟨u, ""⟩], ts', b', rfl, ⟨hu, rfl⟩, by simp, hrest⟩
  | ⟨t, after⟩ :: q :: rest, hwf, hdot, _, _, h => by
    rw [TypeName.tokensAll, List.append_assoc] at h
    obtain ⟨u, ts₁, b₁, rfl, hu, _, hcomma⟩ :=
      TypeName.respelled_inv t hwf.1 (head?_symbol_ne (by decide)) h
    obtain ⟨ts₂, rfl, hitems⟩ := Respelled.symbol_inv hcomma
    obtain ⟨qs, ts', b', rfl, hqs, hnil, hrest⟩ :=
      TypeName.respelledAll_inv (q :: rest) hwf.2 hdot hitems
    cases qs with
    | nil => exact absurd (hnil.mp rfl) (List.cons_ne_nil q rest)
    | cons p qs =>
      refine ⟨⟨u, after⟩ :: p :: qs, ts', b', ?_, ⟨hu, hqs⟩, by simp, hrest⟩
      rw [TypeName.tokensAll, List.append_assoc]
      rfl

end

/-- A respelling of a declaration is one; its name and what follows are kept. -/
theorem Respelled.declaresAhead {b e : Bool} {ts us : List Token} (h : Respelled 2 b ts us e)
    (hus : DeclaresAhead us) : DeclaresAhead ts := by
  obtain ⟨type, name, sign, more, rfl, htype, hname, hsign, hany⟩ := hus
  have hdot : (name :: sign :: more).head? ≠ some (symbol "" ".") := by
    intro hhead
    cases hhead
    exact absurd hname (by decide)
  obtain ⟨type', ts₁, b₁, rfl, htype', hany', hname'⟩ := type.respelled_inv htype hdot h
  -- A name of two segments has a dot behind its first word, where the sign stands.
  rcases hname'.cons_inv with ⟨ts₂, rfl, hsign'⟩ | ⟨_, l, s, ss, _, _, us', _, _, htwo, hrow, _⟩
  · rcases hsign'.cons_inv with ⟨ts₃, rfl, _⟩ | ⟨_, l, s, ss, _, _, us', hword, hchain, _⟩
    · exact ⟨type', name, sign, ts₃, rfl, htype', hname, hsign, by rw [hany']; exact hany⟩
    · subst hword
      have hs := (isChainText_cons.mp hchain).1
      have htext : s = "=" ∨ s = ";" := by simpa [Token.is] using hsign
      rcases htext with rfl | rfl
      · exact absurd hs (by decide)
      · exact absurd hs (by decide)
  · cases ss with
    | nil => exact absurd htwo (by decide)
    | cons s' ss =>
      cases hrow
      exact absurd hsign (by decide)

/-- **A respelling starts like a local variable where the row does**, when simple names are left
alone. -/
theorem Respelled.looksVariable {b e : Bool} {ts us : List Token} (h : Respelled 2 b ts us e)
    (hus : LooksVariable us) : LooksVariable ts := by
  rcases hus with hfinal | ⟨t, ht, hmark⟩ | hdeclares
  · cases us with
    | nil => cases hfinal
    | cons u us =>
      rcases h.cons_inv with ⟨ts', rfl, _⟩ | ⟨_, l, s, ss, _, _, _, rfl, hchain, _⟩
      · exact .inl hfinal
      · have htext : s = "final" := by simpa [Token.is] using hfinal
        rw [htext] at hchain
        exact absurd (isChainText_cons.mp hchain).1 (by decide)
  · cases us with
    | nil => cases ht
    | cons u us =>
      cases ht
      rcases h.cons_inv with ⟨ts', rfl, _⟩ | ⟨_, l, s, ss, _, _, _, rfl, hchain, _⟩
      · exact .inr (.inl ⟨t, rfl, hmark⟩)
      · have hs := (isChainText_cons.mp hchain).1
        rw [isNameText, Bool.and_eq_true, Token.isName, Bool.and_eq_true] at hs
        have hmark' : (word "" s).isMarker = true := hmark
        rw [hmark'] at hs
        exact absurd hs.2.2 (by decide)
  · exact .inr (.inr (h.declaresAhead hdeclares))

end Migration
