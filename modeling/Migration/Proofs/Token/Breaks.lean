import Mathlib.Data.List.Chain
import Migration.Proofs.Text.Identifier
import Migration.Proofs.Token.Cutting
import Migration.Proofs.Tree.Names

/-!
# Line breaks in texts

In a Windows text a carriage return stands in front of every line feed. What is said of line breaks here
holds for any property that texts pass on to the text made of them, and that a text passes on to its parts,
unless it is cut between a carriage return and a line feed (`BreakLaw`). No token starts with a line feed or
ends with a carriage return, so a source has such a property exactly if all trivia and all tokens in it have
(`BreakLaw.spell_iff`). A name that has it has it in every segment, and the names of a configuration and those
that are read from a source have no line breaks in them at all.
-/

namespace Migration

open Scan (Scannable Cuts isLexeme)

namespace Text

/-- In front of every line feed of the text stands a carriage return. -/
def IsWindows (text : List Char) : Prop :=
  ∀ before after, text = before ++ '\n' :: after → before.getLast? = some '\r'

/-- It is enough to look at every two neighbours, with a blank in front of the first character. -/
theorem isWindows_iff {text : List Char} :
    IsWindows text ↔ (' ' :: text).IsChain fun c d => d = '\n' → c = '\r' := by
  rw [List.isChain_iff_forall_rel_of_append_cons_cons]
  constructor
  · rintro h c _ front back heq rfl
    cases front with
    | nil =>
      obtain ⟨rfl, rfl⟩ := List.cons.inj heq
      exact absurd (h [] back rfl) (by decide)
    | cons x front =>
      have hlast := h (front ++ [c]) back (by simpa using (List.cons.inj heq).2)
      rw [List.getLast?_concat] at hlast
      exact Option.some.inj hlast
  · rintro h before after rfl
    rcases List.eq_nil_or_concat before with rfl | ⟨front, c, rfl⟩
    · exact absurd (@h ' ' '\n' [] after rfl rfl) (by decide)
    · rw [List.concat_eq_append] at h ⊢
      rw [List.getLast?_concat, @h c '\n' (' ' :: front) after (by simp) rfl]

instance : DecidablePred IsWindows := fun _ => decidable_of_iff _ isWindows_iff.symm

/-- The text has neither line feeds nor carriage returns. -/
def Unbroken (text : List Char) : Prop := ∀ c ∈ text, c ≠ '\n' ∧ c ≠ '\r'

-- One character after the other is looked at, and not one character of the alphabet after the other.
instance (text : List Char) : Decidable (Unbroken text) :=
  List.decidableBAll (fun c => c ≠ '\n' ∧ c ≠ '\r') text

/-- A property of the line breaks of texts. -/
structure BreakLaw (P : List Char → Prop) : Prop where
  unbroken {a : List Char} : Unbroken a → P a
  append {a b : List Char} : P a → P b → P (a ++ b)
  left {a b : List Char} : P (a ++ b) → P a
  right {a b : List Char} : a.getLast? ≠ some '\r' ∨ b.head? ≠ some '\n' → P (a ++ b) → P b

theorem breakLaw_isWindows : BreakLaw IsWindows where
  unbroken := by
    rintro a h before after rfl
    exact absurd rfl (h '\n' (by simp)).1
  append := by
    intro a b ha hb before after h
    rcases List.append_eq_append_iff.mp h with ⟨x, rfl, hx⟩ | ⟨x, rfl, hx⟩
    · rw [List.getLast?_append, hb x after hx]
      rfl
    · cases x with
      | nil => exact absurd (hb [] after hx.symm) (by simp)
      | cons c x =>
        obtain ⟨rfl, _⟩ := List.cons.inj hx
        exact ha before x rfl
  left := by
    rintro _ b h before after rfl
    exact h before (after ++ b) (by simp)
  right := by
    rintro a _ hcut h before after rfl
    have hlast := h (a ++ before) after (by simp)
    cases before with
    | nil =>
      rw [List.append_nil] at hlast
      exact absurd hcut (by simp [hlast])
    | cons c before =>
      rw [List.getLast?_append, List.getLast?_cons, Option.some_or] at hlast
      rwa [List.getLast?_cons]

theorem breakLaw_noReturn : BreakLaw ('\r' ∉ ·) where
  unbroken h hmem := (h '\r' hmem).2 rfl
  append ha hb := by
    rw [List.mem_append]
    exact fun h => h.elim ha hb
  left h ha := h (List.mem_append_left _ ha)
  right _ h hb := h (List.mem_append_right _ hb)

end Text

open Text (BreakLaw Unbroken)

/-! ### Tokens -/

theorem Scan.quotedRest_getLast? {quote : Char} {cs body r : List Char}
    (h : quotedRest quote cs = some (body, r)) : body.getLast? = some quote := by
  fun_induction quotedRest quote cs generalizing body r with
  | case1 => cases h
  | case2 c rest ih =>
    obtain ⟨⟨body', r'⟩, h, heq⟩ := Option.map_eq_some_iff.mp h
    cases heq
    rw [List.getLast?_cons_cons, List.getLast?_cons, ih h]
    rfl
  | case3 c rest _ hbad => cases h
  | case4 c rest hesc hbad hq =>
    cases h
    rw [List.getLast?_singleton, eq_of_beq hq]
  | case5 c rest hesc hbad hq ih =>
    obtain ⟨⟨body', r'⟩, h, heq⟩ := Option.map_eq_some_iff.mp h
    cases heq
    rw [List.getLast?_cons, ih h]
    rfl

/-- No token ends with a carriage return. -/
theorem Scan.getLast?_of_isLexeme {kind : TokenKind} {text : List Char} (h : isLexeme kind text = true) :
    text.getLast? ≠ some '\r' := by
  have hquoted {quote : Char} (hquote : quote ≠ '\r') (h : isQuotedText quote text = true) :
      text.getLast? ≠ some '\r' := by
    cases text with
    | nil => simp
    | cons c cs =>
      rw [isQuotedText, Bool.and_eq_true, beq_iff_eq (b := some (cs, []))] at h
      rw [List.getLast?_cons, quotedRest_getLast? h.2]
      exact fun heq => hquote (Option.some.inj heq)
  intro hlast
  have hmem := List.mem_of_getLast? hlast
  cases kind with
  | word =>
    obtain ⟨c, cs, rfl, hc, hcs⟩ := first_of_isWordText h
    rw [List.all_eq_true] at hcs
    rcases List.mem_cons.mp hmem with rfl | hmem
    · exact absurd hc (by decide)
    · exact absurd (hcs _ hmem) (by decide)
  | number =>
    cases text with
    | nil => cases hmem
    | cons c cs =>
      rw [isLexeme, isNumberText, Bool.and_eq_true, List.all_eq_true] at h
      rcases List.mem_cons.mp hmem with rfl | hmem
      · exact absurd h.1 (by decide)
      · exact absurd (h.2 _ hmem) (by decide)
  | string => exact hquoted (by decide) h hlast
  | character => exact hquoted (by decide) h hlast
  | symbol =>
    have hall : ∀ s ∈ symbols, '\r' ∉ s.toList := by decide
    refine hall _ (List.contains_iff_mem.mp h) ?_
    rwa [String.toList_ofList]
  | eof => cases h

/-- No token starts with a line feed. -/
theorem Scan.Cuts.head?_append {kind : TokenKind} {text next : List Char} (h : Cuts kind text next) :
    (text ++ next).head? ≠ some '\n' := by
  obtain ⟨hstart, c, cs, rfl, _⟩ := h
  rintro ⟨⟩
  cases hstart

/-- The property holds of the trivia in front of the token and of its text. -/
def Token.Obeys (P : List Char → Prop) (t : Token) : Prop := P t.lead.toList ∧ P t.text.toList

namespace Text.BreakLaw

variable {P : List Char → Prop} (hP : BreakLaw P)

include hP

theorem flatMap {α : Type} {f : α → List Char} {as : List α} (h : ∀ a ∈ as, P (f a)) :
    P (as.flatMap f) := by
  induction as with
  | nil => exact hP.unbroken (List.forall_mem_nil _)
  | cons a as ih =>
    obtain ⟨ha, has⟩ := List.forall_mem_cons.mp h
    exact hP.append ha (ih has)

theorem spell {ts : List Token} (h : ∀ t ∈ ts, t.Obeys P) : P (spell ts) :=
  hP.flatMap fun t ht => hP.append (h t ht).1 (h t ht).2

/-- **A source has a property of line breaks exactly if the trivia and the tokens in it have.** -/
theorem spell_iff {ts : List Token} {tail : List Char} (h : Scannable ts tail) :
    P (Migration.spell ts ++ tail) ↔ (∀ t ∈ ts, t.Obeys P) ∧ P tail := by
  refine ⟨fun htext => ?_, fun ⟨hts, htail⟩ => hP.append (hP.spell hts) htail⟩
  induction ts with
  | nil => exact ⟨List.forall_mem_nil _, htext⟩
  | cons t ts ih =>
    obtain ⟨_, hcut, hscans⟩ := h
    rw [spell_cons, List.append_assoc, List.append_assoc] at htext
    have hbehind := hP.right (.inr hcut.head?_append) htext
    obtain ⟨hts, htail⟩ :=
      ih hscans (hP.right (.inl (Scan.getLast?_of_isLexeme hcut.isLexeme)) hbehind)
    exact ⟨List.forall_mem_cons.mpr ⟨⟨hP.left htext, hP.left hbehind⟩, hts⟩, htail⟩

/-! ### Names -/

theorem segments {name : String} (h : P name.toList) : ∀ s ∈ Name.segments name, P s.toList := by
  cases hsegments : Name.segments name with
  | nil => exact List.forall_mem_nil _
  | cons s ss =>
    rw [Name.toList_of_segments hsegments] at h
    clear hsegments
    induction ss generalizing s with
    | nil => exact List.forall_mem_singleton.mpr (hP.left h)
    | cons t ss ih =>
      rw [List.flatMap_cons, List.cons_append] at h
      have hdot := hP.right (.inr (by simp)) h
      have hrest := hP.right (a := ['.']) (.inl (by decide)) hdot
      exact List.forall_mem_cons.mpr ⟨hP.left h, ih t hrest⟩

end Text.BreakLaw

theorem unbroken_of_isDottedText {name : String} {dotted : Bool} (h : isDottedText dotted name = true) :
    Unbroken name.toList := by
  refine fun c hc => ⟨?_, ?_⟩ <;> rintro rfl
  · exact not_mem_of_isDottedText (by decide) (by decide) (by decide) (by decide) h hc
  · exact not_mem_of_isDottedText (by decide) (by decide) (by decide) (by decide) h hc

namespace Name

theorem unbroken_of_isIdentifierShaped {s : String} (h : isIdentifierShaped s = true) :
    Unbroken s.toList := by
  intro c hc
  constructor
  · rintro rfl
    exact notMem_of_isIdentifierShaped h (by decide) (by decide) hc
  · rintro rfl
    exact notMem_of_isIdentifierShaped h (by decide) (by decide) hc

theorem unbroken_of_isIdentifier {s : String} (h : isIdentifier s = true) : Unbroken s.toList :=
  unbroken_of_isIdentifierShaped (Bool.and_eq_true_iff.mp h).1

theorem unbroken_of_areSegments {ss : List String} (h : areSegments ss = true) :
    ∀ s ∈ ss, Unbroken s.toList := by
  induction ss with
  | nil => exact List.forall_mem_nil _
  | cons s ss ih =>
    cases ss with
    | nil => exact List.forall_mem_singleton.mpr (unbroken_of_isIdentifier h)
    | cons t ts =>
      rw [areSegments, Bool.and_eq_true] at h
      · exact List.forall_mem_cons.mpr ⟨unbroken_of_isIdentifierShaped h.1, ih h.2⟩
      · exact fun h => List.cons_ne_nil t ts h

/-- The name of a type has no line breaks in it. -/
theorem unbroken_of_isTypeName {name : String} (h : isTypeName name = true) : Unbroken name.toList := by
  rw [isTypeName] at h
  split at h
  case h_1 => cases h
  case h_2 first rest hsegments =>
    rw [Bool.and_eq_true] at h
    rw [toList_of_segments hsegments]
    refine List.forall_mem_append.mpr ⟨unbroken_of_isIdentifier h.1, fun c hc => ?_⟩
    obtain ⟨s, hs, hc⟩ := List.mem_flatMap.mp hc
    rcases List.mem_cons.mp hc with rfl | hc
    · decide
    · exact unbroken_of_areSegments h.2 s hs c hc

end Name

end Migration
