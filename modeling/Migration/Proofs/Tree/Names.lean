import Migration.Proofs.Tree.WellFormed

/-!
# Which words make up a name

A name is a row of words. The first must be a name by itself, a later one may be a keyword as long
as a dot follows it, so that whether a row can be read depends on what stands behind it. Rows are put
together and taken apart by `isChainText_append` and `areSegmentTexts_append`, and a row that can be
read is the row of segments of the name that it spells (`segments_ofSegments_of_isChainText`).
-/

namespace Migration

/-! ### Single words -/

theorem isSegmentText_of_isNameText {s : String} (dotted : Bool) (h : isNameText s = true) :
    isSegmentText dotted s = true := by
  simp only [isNameText, Token.isName, Bool.and_eq_true, Token.word_text] at h
  simp only [isSegmentText, Bool.and_eq_true, Bool.or_eq_true]
  exact ⟨⟨h.1, h.2.2⟩, .inr h.2.1.2⟩

theorem isNameText_of_isSegmentText {s : String} (h : isSegmentText false s = true) :
    isNameText s = true := by
  simp only [isSegmentText, Bool.and_eq_true, Bool.false_or] at h
  simp only [isNameText, Token.isName, Bool.and_eq_true, Token.word_kind, Token.word_text,
    beq_self_eq_true, true_and]
  exact ⟨h.1.1, h.2, h.1.2⟩

theorem isSegmentText_mono {a b : Bool} {s : String} (hab : a = true → b = true)
    (h : isSegmentText a s = true) : isSegmentText b s = true := by
  simp only [isSegmentText, Bool.and_eq_true, Bool.or_eq_true] at h ⊢
  exact ⟨h.1, h.2.imp hab id⟩

theorem isWordText_of_isNameText {s : String} (h : isNameText s = true) :
    Scan.isWordText s.toList = true := (Bool.and_eq_true_iff.mp h).1

theorem isWordText_of_isSegmentText {dotted : Bool} {s : String}
    (h : isSegmentText dotted s = true) : Scan.isWordText s.toList = true := by
  rw [isSegmentText, Bool.and_eq_true, Bool.and_eq_true] at h
  exact h.1.1

/-- A character that can neither start a word nor stand in it is not in one. -/
theorem not_mem_of_isWordText {s : String} {c : Char} (hne : c ≠ '@') (hstart : Scan.isWordStart c = false)
    (hpart : Scan.isWordPart c = false) (h : Scan.isWordText s.toList = true) : c ∉ s.toList := by
  intro hmem
  simp only [Scan.isWordText, Bool.and_eq_true] at h
  cases hs : s.toList with
  | nil => simp [hs] at hmem
  | cons d cs =>
    rw [hs] at h hmem
    rcases List.mem_cons.mp hmem with rfl | hmem
    · rw [Scan.startsWord_cons _ hne, hstart] at h
      cases h.1
    · cases hpart.symm.trans (List.all_eq_true.mp h.2 _ hmem)

theorem dotless_of_isWordText {s : String} (h : Scan.isWordText s.toList = true) :
    Name.Dotless s := not_mem_of_isWordText (by decide) (by decide) (by decide) h

/-! ### Later segments -/

theorem areSegmentTexts_cons {dotted : Bool} {s : String} {ss : List String} :
    areSegmentTexts dotted (s :: ss) = true ↔
      isSegmentText (dotted || !ss.isEmpty) s = true ∧ areSegmentTexts dotted ss = true := by
  cases ss with
  | nil => simp [areSegmentTexts]
  | cons t ts => simp [areSegmentTexts]

theorem areSegmentTexts_words {dotted : Bool} {ss : List String}
    (h : areSegmentTexts dotted ss = true) : ∀ s ∈ ss, Scan.isWordText s.toList = true := by
  induction ss with
  | nil => exact List.forall_mem_nil _
  | cons s ss ih =>
    obtain ⟨hs, hss⟩ := areSegmentTexts_cons.mp h
    exact List.forall_mem_cons.mpr ⟨isWordText_of_isSegmentText hs, ih hss⟩

theorem areSegmentTexts_mono {a b : Bool} {ss : List String} (hab : a = true → b = true)
    (h : areSegmentTexts a ss = true) : areSegmentTexts b ss = true := by
  induction ss with
  | nil => rfl
  | cons s ss ih =>
    obtain ⟨hs, hss⟩ := areSegmentTexts_cons.mp h
    refine areSegmentTexts_cons.mpr ⟨isSegmentText_mono (fun ha => ?_) hs, ih hss⟩
    rw [Bool.or_eq_true] at ha ⊢
    exact ha.imp_left hab

/-- More segments behind some are a dot behind these. -/
theorem areSegmentTexts_append {dotted : Bool} {ss rest : List String}
    (h : areSegmentTexts (dotted || !rest.isEmpty) ss = true)
    (hrest : areSegmentTexts dotted rest = true) : areSegmentTexts dotted (ss ++ rest) = true := by
  induction ss with
  | nil => exact hrest
  | cons s ss ih =>
    obtain ⟨hs, hss⟩ := areSegmentTexts_cons.mp h
    refine areSegmentTexts_cons.mpr ⟨isSegmentText_mono (fun ha => ?_) hs, ih hss⟩
    cases ss <;> cases rest <;> simp_all

theorem areSegmentTexts_of_append {dotted : Bool} {ss rest : List String}
    (h : areSegmentTexts dotted (ss ++ rest) = true) : areSegmentTexts dotted rest = true := by
  induction ss with
  | nil => exact h
  | cons s ss ih => exact ih (areSegmentTexts_cons.mp h).2

theorem areSegmentTexts_concat {dotted : Bool} {ss : List String} {s : String} :
    areSegmentTexts dotted (ss ++ [s]) = true ↔
      areSegmentTexts true ss = true ∧ isSegmentText dotted s = true := by
  induction ss with
  | nil => exact (and_iff_right rfl).symm
  | cons t ts ih =>
    have hmore : (ts ++ [s]).isEmpty = false := by cases ts <;> rfl
    rw [List.cons_append, areSegmentTexts_cons, ih, areSegmentTexts_cons, and_assoc, hmore,
      Bool.not_false, Bool.or_true, Bool.true_or]

/-! ### Whole names -/

/-- The segments can be read as a dotted name, `dotted` telling whether a dot follows it. -/
def isChainText (dotted : Bool) : List String → Bool
  | [] => false
  | s :: ss => isNameText s && areSegmentTexts dotted ss

theorem isDottedText_eq (dotted : Bool) (name : String) :
    isDottedText dotted name = isChainText dotted (Name.segments name) := by
  rw [isDottedText]
  cases Name.segments name <;> rfl

theorem isChainText_cons {dotted : Bool} {s : String} {ss : List String} :
    isChainText dotted (s :: ss) = true ↔ isNameText s = true ∧ areSegmentTexts dotted ss = true :=
  Bool.and_eq_true_iff

theorem isChainText_words {dotted : Bool} {ss : List String} (h : isChainText dotted ss = true) :
    ∀ s ∈ ss, Scan.isWordText s.toList = true := by
  cases ss with
  | nil => cases h
  | cons s ss =>
    obtain ⟨hs, hss⟩ := isChainText_cons.mp h
    exact List.forall_mem_cons.mpr ⟨isWordText_of_isNameText hs, areSegmentTexts_words hss⟩

theorem isChainText_ne_nil {dotted : Bool} {ss : List String} (h : isChainText dotted ss = true) :
    ss ≠ [] := by
  rintro rfl
  cases h

theorem isChainText_mono {a b : Bool} {ss : List String} (hab : a = true → b = true)
    (h : isChainText a ss = true) : isChainText b ss = true := by
  cases ss with
  | nil => cases h
  | cons s ss =>
    obtain ⟨hs, hss⟩ := isChainText_cons.mp h
    exact isChainText_cons.mpr ⟨hs, areSegmentTexts_mono hab hss⟩

theorem isChainText_append {dotted : Bool} {ss rest : List String}
    (h : isChainText (dotted || !rest.isEmpty) ss = true)
    (hrest : areSegmentTexts dotted rest = true) : isChainText dotted (ss ++ rest) = true := by
  cases ss with
  | nil => cases h
  | cons s ss =>
    obtain ⟨hs, hss⟩ := isChainText_cons.mp h
    exact isChainText_cons.mpr ⟨hs, areSegmentTexts_append hss hrest⟩

theorem isChainText_concat {dotted : Bool} {ss : List String} {s : String} (hne : ss ≠ []) :
    isChainText dotted (ss ++ [s]) = true ↔
      isChainText true ss = true ∧ isSegmentText dotted s = true := by
  cases ss with
  | nil => exact absurd rfl hne
  | cons t ts =>
    rw [List.cons_append, isChainText_cons, areSegmentTexts_concat, isChainText_cons, and_assoc]

theorem areSegmentTexts_of_isChainText_append {dotted : Bool} {ss rest : List String}
    (hne : ss ≠ []) (h : isChainText dotted (ss ++ rest) = true) :
    areSegmentTexts dotted rest = true := by
  cases ss with
  | nil => exact absurd rfl hne
  | cons s ss => exact areSegmentTexts_of_append (isChainText_cons.mp h).2

theorem flatMap_segments {ss : List String} (h : ∀ s ∈ ss, Scan.isWordText s.toList = true) :
    ss.flatMap Name.segments = ss := by
  induction ss with
  | nil => rfl
  | cons s ss ih =>
    obtain ⟨hs, hss⟩ := List.forall_mem_cons.mp h
    rw [List.flatMap_cons, Name.segments_of_dotless (dotless_of_isWordText hs), ih hss]
    rfl

/-- The name that segments spell has these segments. -/
theorem segments_ofSegments_of_isChainText {dotted : Bool} {ss : List String}
    (h : isChainText dotted ss = true) : Name.segments (Name.ofSegments ss) = ss := by
  rw [Name.segments_ofSegments (isChainText_ne_nil h), flatMap_segments (isChainText_words h)]

theorem isDottedText_of_isNameText {s : String} (h : isNameText s = true) :
    isDottedText false s = true := by
  rw [isDottedText_eq, Name.segments_of_dotless (dotless_of_isWordText (isWordText_of_isNameText h))]
  exact isChainText_cons.mpr ⟨h, rfl⟩

/-- The last segment of a name is a name by itself. -/
theorem isNameText_simple {name : String} (h : isDottedText false name = true) :
    isNameText (Name.simple name) = true := by
  rw [isDottedText_eq] at h
  rcases List.eq_nil_or_concat (Name.segments name) with hnil | ⟨ss, last, hsegments⟩
  · exact absurd hnil (Name.segments_ne_nil name)
  · rw [List.concat_eq_append] at hsegments
    rw [Name.simple_of_segments hsegments]
    rw [hsegments] at h
    cases ss with
    | nil => exact (isChainText_cons.mp h).1
    | cons s ss =>
      exact isNameText_of_isSegmentText ((isChainText_concat (List.cons_ne_nil s ss)).mp h).2

theorem areSegmentTexts_of_names {dotted : Bool} {ss : List String}
    (h : ∀ s ∈ ss, isNameText s = true) : areSegmentTexts dotted ss = true := by
  induction ss with
  | nil => rfl
  | cons s ss ih =>
    obtain ⟨hs, hss⟩ := List.forall_mem_cons.mp h
    exact areSegmentTexts_cons.mpr ⟨isSegmentText_of_isNameText _ hs, ih hss⟩

theorem ne_any_of_isDottedText {dotted : Bool} {name : String}
    (h : isDottedText dotted name = true) : name ≠ "?" := by
  rintro rfl
  cases dotted <;> exact absurd h (by decide)

theorem not_mem_of_isDottedText {name : String} {c : Char} (hne : c ≠ '@')
    (hstart : Scan.isWordStart c = false) (hpart : Scan.isWordPart c = false) (hdot : c ≠ '.')
    {dotted : Bool} (h : isDottedText dotted name = true) : c ∉ name.toList := by
  rw [isDottedText_eq] at h
  have hwords := isChainText_words h
  cases hsegments : Name.segments name with
  | nil => exact absurd hsegments (Name.segments_ne_nil name)
  | cons s ss =>
    rw [hsegments] at hwords
    have hout (t : String) (ht : t ∈ s :: ss) : c ∉ t.toList :=
      not_mem_of_isWordText hne hstart hpart (hwords t ht)
    rw [Name.toList_of_segments hsegments, List.mem_append, List.mem_flatMap, not_or]
    refine ⟨hout s List.mem_cons_self, ?_⟩
    rintro ⟨t, ht, hc⟩
    exact (List.mem_cons.mp hc).elim hdot (hout t (List.mem_cons_of_mem _ ht))

end Migration
