import Mathlib.Data.List.TakeWhile
import Migration.Text.Name

/-!
# Segments of names

The segments of a name are the runs between its dots (`toList_of_segments`), and none of them has a
dot itself. The simple name is the last segment (`simple_of_segments`); with the qualifier it
determines the name (`eq_of_qualifier_simple`).
-/

namespace Migration.Name

/-! ### Splitting -/

theorem splitAt_ne_nil (sep : Char) (cs : List Char) : splitAt sep cs ≠ [] := by
  cases cs with
  | nil => simp [splitAt]
  | cons c cs =>
    rw [splitAt]
    split
    · simp
    · split <;> simp

/-- The runs put together again, with the separator in front of each but the first. -/
theorem splitAt_spec (sep : Char) (cs : List Char) : ∀ {w : List Char} {ws : List (List Char)},
    splitAt sep cs = w :: ws → cs = w ++ ws.flatMap (fun v => sep :: v) := by
  induction cs with
  | nil =>
    intro w ws h
    cases h
    rfl
  | cons c cs ih =>
    intro w ws h
    rw [splitAt] at h
    split at h
    · next hc =>
      cases h
      cases hs : splitAt sep cs with
      | nil => exact absurd hs (splitAt_ne_nil sep cs)
      | cons v vs =>
        rw [List.nil_append, List.flatMap_cons, List.cons_append, ← ih hs]
        rw [beq_iff_eq.mp hc]
    · split at h
      · next hs => exact absurd hs (splitAt_ne_nil sep cs)
      · next v vs hs =>
        cases h
        rw [List.cons_append, ← ih hs]

theorem notMem_of_mem_splitAt {sep : Char} {cs w : List Char} (h : w ∈ splitAt sep cs) :
    sep ∉ w := by
  induction cs generalizing w with
  | nil =>
    rw [splitAt, List.mem_singleton] at h
    subst h
    simp
  | cons c cs ih =>
    rw [splitAt] at h
    split at h
    · rcases List.mem_cons.mp h with rfl | h
      · simp
      · exact ih h
    · next hc =>
      split at h
      · next hs => exact absurd hs (splitAt_ne_nil sep cs)
      · next v vs hs =>
        rcases List.mem_cons.mp h with rfl | h
        · have hv := ih (w := v) (by rw [hs]; exact List.mem_cons_self)
          have hne : sep ≠ c := fun he => hc (by rw [he]; exact beq_self_eq_true c)
          simp [hne, hv]
        · exact ih (by rw [hs]; exact List.mem_cons_of_mem _ h)

theorem splitAt_of_notMem {sep : Char} {w : List Char} (h : sep ∉ w) : splitAt sep w = [w] := by
  induction w with
  | nil => rfl
  | cons c cs ih =>
    have hc : ¬ (c == sep) = true := fun he => h (by rw [beq_iff_eq.mp he]; exact List.mem_cons_self)
    rw [splitAt, if_neg hc, ih (fun hm => h (List.mem_cons_of_mem _ hm))]

theorem splitAt_append {sep : Char} {w : List Char} (h : sep ∉ w) {cs v : List Char}
    {vs : List (List Char)} (hcs : splitAt sep cs = v :: vs) :
    splitAt sep (w ++ cs) = (w ++ v) :: vs := by
  induction w with
  | nil => exact hcs
  | cons c ds ih =>
    have hc : ¬ (c == sep) = true := fun he => h (by rw [beq_iff_eq.mp he]; exact List.mem_cons_self)
    rw [List.cons_append, splitAt, if_neg hc, ih (fun hm => h (List.mem_cons_of_mem _ hm))]
    rfl

theorem splitAt_append_sep (sep : Char) (as bs : List Char) :
    splitAt sep (as ++ sep :: bs) = splitAt sep as ++ splitAt sep bs := by
  induction as with
  | nil =>
    have hsep : splitAt sep (sep :: bs) = [] :: splitAt sep bs := by
      rw [splitAt, if_pos (beq_self_eq_true sep)]
    exact hsep
  | cons c cs ih =>
    rw [List.cons_append, splitAt, splitAt]
    by_cases hc : (c == sep) = true
    · rw [if_pos hc, if_pos hc, ih, List.cons_append]
    · rw [if_neg hc, if_neg hc, ih]
      cases hs : splitAt sep cs with
      | nil => exact absurd hs (splitAt_ne_nil sep cs)
      | cons w ws => rfl

/-! ### Segments -/

/-- The segment has no dot in it. -/
def Dotless (s : String) : Prop := '.' ∉ s.toList

theorem segments_ne_nil (name : String) : segments name ≠ [] := by
  rw [segments, ne_eq, List.map_eq_nil_iff]
  exact splitAt_ne_nil _ _

theorem dotless_of_mem_segments {name s : String} (h : s ∈ segments name) : Dotless s := by
  obtain ⟨w, hw, rfl⟩ := List.mem_map.mp h
  rw [Dotless, String.toList_ofList]
  exact notMem_of_mem_splitAt hw

/-- The characters of a name by its segments. -/
theorem toList_of_segments {name s : String} {ss : List String} (h : segments name = s :: ss) :
    name.toList = s.toList ++ ss.flatMap (fun t => '.' :: t.toList) := by
  rw [segments] at h
  obtain ⟨w, ws, hsplit, rfl, rfl⟩ := List.map_eq_cons_iff.mp h
  rw [splitAt_spec _ _ hsplit, String.toList_ofList, List.flatMap_map]
  simp only [String.toList_ofList]

theorem eq_of_segments {a b : String} (h : segments a = segments b) : a = b := by
  cases hb : segments b with
  | nil => exact absurd hb (segments_ne_nil b)
  | cons s ss =>
    rw [← String.toList_inj, toList_of_segments (h.trans hb), toList_of_segments hb]

theorem segments_of_dotless {s : String} (h : Dotless s) : segments s = [s] := by
  rw [segments, splitAt_of_notMem h, List.map_singleton, String.ofList_toList]

theorem segments_append {s r v : String} {vs : List String} (h : Dotless s)
    (hr : segments r = v :: vs) : segments (s ++ r) = (s ++ v) :: vs := by
  rw [segments] at hr ⊢
  obtain ⟨w, ws, hsplit, rfl, rfl⟩ := List.map_eq_cons_iff.mp hr
  rw [String.toList_append, splitAt_append h hsplit, List.map_cons, String.ofList_append,
    String.ofList_toList]

theorem segments_dot_append (r : String) : segments ("." ++ r) = "" :: segments r := by
  rw [segments, String.toList_append, show ".".toList = ['.'] from rfl, List.singleton_append,
    splitAt, if_pos (by rfl), List.map_cons]
  rfl

theorem segments_join (a b : String) : segments (a ++ "." ++ b) = segments a ++ segments b := by
  rw [segments, String.toList_append, String.toList_append, show ".".toList = ['.'] from rfl,
    List.append_assoc, List.singleton_append, splitAt_append_sep, List.map_append, segments,
    segments]

/-- The segments of a name that was put together are those of its parts. -/
theorem segments_ofSegments {parts : List String} (h : parts ≠ []) :
    segments (ofSegments parts) = parts.flatMap segments := by
  induction parts with
  | nil => exact absurd rfl h
  | cons p ps ih =>
    cases ps with
    | nil => rw [ofSegments, String.intercalate_singleton, List.flatMap_singleton]
    | cons q qs =>
      rw [ofSegments, String.intercalate_cons_cons, segments_join, List.flatMap_cons]
      exact congrArg _ (ih (List.cons_ne_nil q qs))

/-! ### Simple name, qualifier and head -/

theorem dotless_simple (name : String) : Dotless (simple name) := by
  rw [Dotless, simple, String.toList_ofList, List.mem_reverse]
  intro h
  simpa using List.mem_takeWhile_imp h

theorem dotless_head (name : String) : Dotless (head name) := by
  rw [Dotless, head, String.toList_ofList]
  intro h
  simpa using List.mem_takeWhile_imp h

theorem head_of_dotless {s : String} (h : Dotless s) : head s = s := by
  rw [head, List.takeWhile_eq_self_iff.mpr, String.ofList_toList]
  intro c hc
  rw [bne_iff_ne]
  rintro rfl
  exact h hc

/-- The head of a name is its first segment. -/
theorem head_of_segments {name s : String} {ss : List String} (h : segments name = s :: ss) :
    head name = s := by
  have hs : Dotless s := dotless_of_mem_segments (by rw [h]; exact List.mem_cons_self)
  have hword : ∀ c ∈ s.toList, (c != '.') = true := by
    intro c hc
    rw [bne_iff_ne]
    rintro rfl
    exact hs hc
  have hrest : (ss.flatMap fun t => '.' :: t.toList).takeWhile (· != '.') = [] := by
    cases ss with
    | nil => rfl
    | cons t ts => rfl
  rw [head, toList_of_segments h, List.takeWhile_append_of_pos hword, hrest, List.append_nil,
    String.ofList_toList]

theorem simple_of_dotless {s : String} (h : Dotless s) : simple s = s := by
  rw [simple, List.takeWhile_eq_self_iff.mpr, List.reverse_reverse, String.ofList_toList]
  intro c hc
  rw [bne_iff_ne]
  rintro rfl
  exact h (List.mem_reverse.mp hc)

theorem isQualified_eq_false {s : String} : isQualified s = false ↔ Dotless s := by
  rw [isQualified, Dotless, ← Bool.not_eq_true, List.contains_iff_mem]

theorem toList_reverse_eq (name : String) : name.toList.reverse
    = (simple name).toList.reverse
      ++ ((qualifier? name).map fun q => '.' :: q.toList.reverse).getD [] := by
  have hsplit := List.takeWhile_append_dropWhile (p := (· != '.')) (l := name.toList.reverse)
  have htail : name.toList.reverse.dropWhile (· != '.')
      = ((qualifier? name).map fun q => '.' :: q.toList.reverse).getD [] := by
    rw [qualifier?]
    cases hd : name.toList.reverse.dropWhile (· != '.') with
    | nil => rfl
    | cons c rest =>
      have hc := List.head_dropWhile_not (· != '.') (l := name.toList.reverse) (by rw [hd]; simp)
      simp only [hd, List.head_cons, bne_eq_false_iff_eq] at hc
      simp [hc]
  rw [← htail, simple, String.toList_ofList, List.reverse_reverse, hsplit]

/-- **A name is its qualifier and its simple name.** -/
theorem eq_of_qualifier_simple {a b : String} (hq : qualifier? a = qualifier? b)
    (hs : simple a = simple b) : a = b := by
  rw [← String.toList_inj, ← List.reverse_inj, toList_reverse_eq a, toList_reverse_eq b, hq, hs]

/-- The simple name is the last segment. -/
theorem simple_of_segments {name s : String} {ss : List String} (h : segments name = ss ++ [s]) :
    simple name = s := by
  have hdot : Dotless s := dotless_of_mem_segments (by rw [h]; simp)
  have hall : ∀ c ∈ s.toList.reverse, (c != '.') = true := by
    intro c hc
    rw [bne_iff_ne]
    rintro rfl
    exact hdot (List.mem_reverse.mp hc)
  have htake : name.toList.reverse.takeWhile (· != '.') = s.toList.reverse := by
    cases ss with
    | nil =>
      rw [toList_of_segments h, List.flatMap_nil, List.append_nil, List.takeWhile_eq_self_iff.mpr hall]
    | cons t ts =>
      rw [toList_of_segments (show segments name = t :: (ts ++ [s]) from h), List.flatMap_append,
        List.reverse_append, List.reverse_append, List.flatMap_singleton, List.reverse_cons, List.append_assoc,
        List.append_assoc, List.takeWhile_append_of_pos hall, List.singleton_append,
        List.takeWhile_cons_of_neg (by simp), List.append_nil]
  rw [simple, htake, List.reverse_reverse, String.ofList_toList]

theorem simple_ofSegments {parts : List String} {s : String} (h : Dotless s) :
    simple (ofSegments (parts ++ [s])) = s := by
  have hsegments : segments (ofSegments (parts ++ [s])) = parts.flatMap segments ++ [s] := by
    rw [segments_ofSegments (by simp), List.flatMap_append, List.flatMap_singleton, segments_of_dotless h]
  exact simple_of_segments hsegments

/-- A name with a dot is what precedes the first one, the dot, and the rest. -/
theorem exists_afterHead {name : String} (h : isQualified name = true) :
    ∃ rest, afterHead name = "." ++ rest ∧ name = head name ++ "." ++ rest := by
  have hsplit := List.takeWhile_append_dropWhile (p := (· != '.')) (l := name.toList)
  have hdot : name.toList.dropWhile (· != '.') ≠ [] := by
    rw [ne_eq, List.dropWhile_eq_nil_iff]
    exact fun hall => absurd (hall '.' (List.contains_iff_mem.mp h)) (by decide)
  obtain ⟨c, rest, hdrop⟩ := List.exists_cons_of_ne_nil hdot
  obtain rfl : c = '.' := by
    have hc := List.head_dropWhile_not (· != '.') hdot
    simpa [hdrop] using hc
  have hafter : afterHead name = "." ++ String.ofList rest := by
    rw [afterHead, hdrop, String.ofList_cons]
    rfl
  refine ⟨String.ofList rest, hafter, ?_⟩
  rw [String.append_assoc, ← hafter, head, afterHead, ← String.ofList_append, hsplit, String.ofList_toList]

/-- What stands in front of a dot has no part in the simple name. -/
theorem simple_join (outer rest : String) : simple (outer ++ "." ++ rest) = simple rest := by
  obtain ⟨front, last, hrest⟩ := (List.eq_nil_or_concat (segments rest)).resolve_left (segments_ne_nil rest)
  rw [List.concat_eq_append] at hrest
  have hjoin : segments (outer ++ "." ++ rest) = segments outer ++ front ++ [last] := by
    rw [segments_join, hrest, List.append_assoc]
  rw [simple_of_segments hrest, simple_of_segments hjoin]

end Migration.Name
