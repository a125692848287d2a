import Migration.Proofs.Text.Segments
import Migration.Text.Identifier
import Migration.Token.Scan

/-!
# Configured names

A configured type has a simple name that is an identifier (`isIdentifier_simple`), whatever stands in
front of it. Among the ASCII characters an identifier is made of those that words of a source are made
of (`isPart_of_ascii`), so that it has no dots and no line breaks and is neither empty nor `?`.
-/

namespace Migration.Name

/-! ### Characters -/

theorem has_eq_false {table : Text.Ranges} (h : ∀ r ∈ table, 128 ≤ r.1) {c : Char}
    (hc : c.toNat < 128) : table.has c = false := by
  rw [Text.Ranges.has, List.any_eq_false]
  intro r hr
  have hfirst := h r hr
  rw [Bool.and_eq_true, decide_eq_true_eq]
  omega

theorem isAlphabetic_of_ascii {c : Char} (hc : c.toNat < 128) :
    Text.isAlphabetic c = c.isAlpha := by
  rw [Text.isAlphabetic, has_eq_false (by decide +kernel) hc, Bool.or_false]

theorem isNumeric_of_ascii {c : Char} (hc : c.toNat < 128) : Text.isNumeric c = c.isDigit := by
  rw [Text.isNumeric, has_eq_false (by decide +kernel) hc, Bool.or_false]

theorem isStart_of_ascii {c : Char} (hc : c.toNat < 128) : isStart c = Scan.isWordStart c := by
  rw [isStart, isAlphabetic_of_ascii hc, Scan.isWordStart]

theorem isPart_of_ascii {c : Char} (hc : c.toNat < 128) : isPart c = Scan.isWordPart c := by
  rw [isPart, isAlphabetic_of_ascii hc, isNumeric_of_ascii hc, Scan.isWordPart, Char.isAlphanum]

theorem isPart_of_isStart {c : Char} (h : isStart c = true) : isPart c = true := by
  rw [isStart, Bool.or_assoc, Bool.or_eq_true] at h
  rw [isPart, Bool.or_assoc, Bool.or_assoc, Bool.or_eq_true, Bool.or_eq_true]
  rcases h with halpha | hmark
  · exact .inl halpha
  · exact .inr (.inr hmark)

/-- An ASCII character that is in no word is in no identifier. -/
theorem notMem_of_isIdentifierShaped {s : String} {c : Char} (h : isIdentifierShaped s = true)
    (hc : c.toNat < 128) (hpart : Scan.isWordPart c = false) : c ∉ s.toList := by
  intro hmem
  rw [isIdentifierShaped] at h
  split at h
  · cases h
  · next d ds hchars =>
    rw [Bool.and_eq_true, List.all_eq_true] at h
    have hall : isPart c = true := by
      rw [hchars] at hmem
      rcases List.mem_cons.mp hmem with rfl | hmem
      · exact isPart_of_isStart h.1
      · exact h.2 c hmem
    rw [isPart_of_ascii hc, hpart] at hall
    cases hall

/-! ### Names of types -/

theorem isIdentifier_last {ss : List String} {last : String} (h : areSegments (ss ++ [last]) = true) :
    isIdentifier last = true := by
  induction ss with
  | nil => exact h
  | cons s ss ih =>
    have hrest : areSegments (ss ++ [last]) = true := by
      cases ss with
      | nil => exact (Bool.and_eq_true_iff.mp h).2
      | cons t ts => exact (Bool.and_eq_true_iff.mp h).2
    exact ih hrest

theorem isIdentifier_simple {name : String} (h : isTypeName name = true) :
    isIdentifier (simple name) = true := by
  rw [isTypeName] at h
  split at h
  · cases h
  · next first rest hsegments =>
    rw [Bool.and_eq_true] at h
    rcases List.eq_nil_or_concat rest with rfl | ⟨ss, last, rfl⟩
    · rw [simple_of_segments (show segments name = [] ++ [first] from hsegments)]
      exact h.1
    · rw [List.concat_eq_append] at hsegments h
      rw [simple_of_segments (show segments name = (first :: ss) ++ [last] from hsegments)]
      exact isIdentifier_last h.2

theorem isIdentifierShaped_of_isIdentifier {s : String} (h : isIdentifier s = true) :
    isIdentifierShaped s = true := (Bool.and_eq_true_iff.mp h).1

theorem dotless_of_isIdentifier {s : String} (h : isIdentifier s = true) : Dotless s :=
  notMem_of_isIdentifierShaped (isIdentifierShaped_of_isIdentifier h) (by decide) (by decide)

theorem ne_of_isIdentifier {s : String} (h : isIdentifier s = true) : s ≠ "" ∧ s ≠ "?" := by
  have hshape := isIdentifierShaped_of_isIdentifier h
  constructor
  · rintro rfl
    exact absurd hshape (by decide)
  · rintro rfl
    exact notMem_of_isIdentifierShaped hshape (c := '?') (by decide) (by decide) (by decide)

end Migration.Name
