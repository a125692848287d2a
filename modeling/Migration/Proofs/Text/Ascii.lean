import Migration.Proofs.Text.Identifier
import Migration.Proofs.Tree.Names

/-!
# ASCII names can be read

Configured names are checked by the Unicode properties of their characters, and read by a scanner
that knows ASCII letters only. For names of ASCII characters the two agree: an identifier can be read
as a name (`isNameText_of_isIdentifier`), and the name of a type as a dotted name
(`isDottedText_of_isTypeName`), because every word that is no name is a keyword.
-/

namespace Migration.Name

/-- All characters are ASCII. -/
def isAscii (name : String) : Bool := name.toList.all (·.toNat < 128)

/-! ### Words -/

/-- What is shaped like an identifier can be read inside a dotted name, keyword or not. -/
theorem isSegmentText_of_isIdentifierShaped {s : String} (ha : isAscii s = true)
    (h : isIdentifierShaped s = true) : isSegmentText true s = true := by
  rw [isAscii, List.all_eq_true] at ha
  rw [isIdentifierShaped] at h
  split at h
  case h_1 => cases h
  case h_2 c cs hs =>
    rw [hs] at ha
    obtain ⟨hc, hcs⟩ := List.forall_mem_cons.mp ha
    rw [Bool.and_eq_true, List.all_eq_true] at h
    have hstart := h.1
    rw [isStart_of_ascii (of_decide_eq_true hc)] at hstart
    have hat : c ≠ '@' := by
      rintro rfl
      exact absurd hstart (by decide)
    rw [isSegmentText, Bool.true_or, Bool.and_true, Bool.and_eq_true, Bool.not_eq_true', hs]
    refine ⟨?_, ?_⟩
    · rw [Scan.isWordText, Bool.and_eq_true, Scan.startsWord_cons cs hat, List.all_eq_true]
      refine ⟨hstart, fun d hd => ?_⟩
      rw [← isPart_of_ascii (of_decide_eq_true (hcs d hd))]
      exact h.2 d hd
    · rw [Token.isMarker, Token.word_text, hs]
      simpa using hat

theorem isNameText_of_isIdentifier {s : String} (ha : isAscii s = true)
    (h : isIdentifier s = true) : isNameText s = true := by
  have hall : ∀ w ∈ reservedWords, keywords.contains w = true := by decide
  rw [isIdentifier, Bool.and_eq_true, Bool.not_eq_true'] at h
  have hshape := isSegmentText_of_isIdentifierShaped ha h.1
  refine isNameText_of_isSegmentText ?_
  rw [isSegmentText, Bool.true_or, Bool.and_true] at hshape
  rw [isSegmentText, hshape, Bool.false_or, Bool.true_and, Bool.not_eq_true', Bool.eq_false_iff]
  intro hreserved
  rw [hall s (List.contains_iff_mem.mp hreserved)] at h
  cases h.2

/-! ### Dotted names -/

theorem isAscii_of_mem_segments {name s : String} (ha : isAscii name = true)
    (h : s ∈ segments name) : isAscii s = true := by
  rw [isAscii, List.all_eq_true] at ha ⊢
  intro c hc
  refine ha c ?_
  cases hs : segments name with
  | nil => exact absurd hs (segments_ne_nil name)
  | cons t ts =>
    rw [toList_of_segments hs]
    rw [hs] at h
    rcases List.mem_cons.mp h with rfl | h
    · exact List.mem_append_left _ hc
    · exact List.mem_append_right _ (List.mem_flatMap.mpr ⟨s, h, List.mem_cons_of_mem _ hc⟩)

theorem areSegmentTexts_of_areSegments {ss : List String} (ha : ∀ s ∈ ss, isAscii s = true)
    (h : areSegments ss = true) : areSegmentTexts false ss = true := by
  induction ss with
  | nil => rfl
  | cons s ss ih =>
    obtain ⟨hs, hss⟩ := List.forall_mem_cons.mp ha
    cases ss with
    | nil => exact isSegmentText_of_isNameText _ (isNameText_of_isIdentifier hs h)
    | cons t ts =>
      rw [areSegments, Bool.and_eq_true] at h
      · rw [areSegmentTexts, isSegmentText_of_isIdentifierShaped hs h.1, ih hss h.2]
        rfl
      · exact fun h => List.cons_ne_nil t ts h

/-- **The name of a type can be read.** -/
theorem isDottedText_of_isTypeName {name : String} (ha : isAscii name = true)
    (h : isTypeName name = true) : isDottedText false name = true := by
  rw [isTypeName] at h
  rw [isDottedText_eq]
  split at h
  case h_1 => cases h
  case h_2 first rest hsegments =>
    rw [hsegments]
    rw [Bool.and_eq_true] at h
    have hall (s : String) (hs : s ∈ first :: rest) : isAscii s = true :=
      isAscii_of_mem_segments ha (by rw [hsegments]; exact hs)
    obtain ⟨hfirst, hrest⟩ := List.forall_mem_cons.mp hall
    exact isChainText_cons.mpr ⟨isNameText_of_isIdentifier hfirst h.1,
      areSegmentTexts_of_areSegments hrest h.2⟩

end Migration.Name
