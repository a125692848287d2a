import Mathlib.Data.Finset.Card
import Migration.Proofs.Text.ByteOrder
import Migration.Proofs.Text.Segments
import Migration.Scope.TypeIndex

/-!
# The known types as a set

The known types are kept by their simple names, each with a set that is not empty and holds types of that
name only. Nothing of this shows: an index is determined by its members (`TypeIndex.eq_of_mem_iff`), and
whatever is asked of it is answered by the set of the names that it was given, in whatever order and however
often (`TypeIndex.run_answers`).
-/

namespace Migration

open Scan (bytes)

/-! ### Lists in order -/

theorem insertInOrder_perm (name : String) (names : List String) :
    (insertInOrder name names).Perm (name :: names) := by
  induction names with
  | nil => exact .refl _
  | cons x xs ih =>
    unfold insertInOrder
    split
    · exact .refl _
    · exact (ih.cons x).trans (.swap name x xs)

theorem inOrder_perm (names : List String) : (inOrder names).Perm names := by
  induction names with
  | nil => exact .nil
  | cons name names ih => exact (insertInOrder_perm name _).trans (ih.cons name)

theorem pairwise_insertInOrder {name : String} {names : List String} (h : names.Pairwise (· ≤ ·)) :
    (insertInOrder name names).Pairwise (· ≤ ·) := by
  induction names with
  | nil => exact List.pairwise_singleton _ _
  | cons x xs ih =>
    obtain ⟨hx, hxs⟩ := List.pairwise_cons.mp h
    unfold insertInOrder
    split
    · next hle =>
      refine List.pairwise_cons.mpr ⟨fun y hy => ?_, h⟩
      rcases List.mem_cons.mp hy with rfl | hy
      · exact hle
      · exact String.le_trans hle (hx y hy)
    · next hnot =>
      refine List.pairwise_cons.mpr ⟨fun y hy => ?_, ih hxs⟩
      rcases List.mem_cons.mp ((insertInOrder_perm name xs).mem_iff.mp hy) with rfl | hy
      · exact (String.le_total _ _).resolve_left hnot
      · exact hx y hy

theorem pairwise_inOrder (names : List String) : (inOrder names).Pairwise (· ≤ ·) := by
  induction names with
  | nil => exact .nil
  | cons name names ih => exact pairwise_insertInOrder ih

namespace TypeIndex

variable {index other : TypeIndex} {simple name x : String} {names : List String}

/-! ### Members -/

theorem mem_bySimpleName : x ∈ index.bySimpleName ↔ ∃ h ∈ index.homonyms, x ∈ h.names.toList :=
  List.mem_flatMap

theorem mem_toList : x ∈ index.toList ↔ ∃ h ∈ index.homonyms, x ∈ h.names.toList :=
  (inOrder_perm _).mem_iff.trans mem_bySimpleName

/-- There is one set for each simple name. -/
theorem homonyms?_eq_some {h : Homonyms} :
    index.homonyms? simple = some h ↔ h ∈ index.homonyms ∧ h.simpleName = simple := by
  constructor
  · intro hfind
    rw [homonyms?] at hfind
    have hsimple := List.find?_some hfind
    exact ⟨List.mem_of_find?_eq_some hfind, beq_iff_eq.mp hsimple⟩
  · rintro ⟨hmem, rfl⟩
    obtain ⟨before, after, hsplit⟩ := List.append_of_mem hmem
    have hsorted := index.sorted
    rw [hsplit, List.pairwise_append] at hsorted
    rw [homonyms?, hsplit, List.find?_append, List.find?_eq_none.mpr, Option.none_or, List.find?_cons_of_pos]
    · exact beq_self_eq_true _
    · intro g hg heq
      have hlt := hsorted.2.2 g hg h List.mem_cons_self
      rw [beq_iff_eq.mp heq] at hlt
      exact String.lt_irrefl _ hlt

/-- **The candidates for a simple name** are the known types that have it. -/
theorem mem_candidates : x ∈ index.candidates simple ↔ x ∈ index.toList ∧ Name.simple x = simple := by
  rw [mem_toList, candidates]
  constructor
  · split
    · next h hfind =>
      obtain ⟨hmem, rfl⟩ := homonyms?_eq_some.mp hfind
      exact fun hx => ⟨⟨h, hmem, hx⟩, h.named x hx⟩
    · exact nofun
  · rintro ⟨⟨h, hmem, hx⟩, rfl⟩
    rw [homonyms?_eq_some.mpr ⟨hmem, (h.named x hx).symm⟩]
    exact hx

theorem contains_eq_true : index.contains x = true ↔ x ∈ index.toList := by
  have hcandidates : x ∈ index.candidates (Name.simple x) ↔ x ∈ index.toList :=
    mem_candidates.trans (and_iff_left rfl)
  rw [← hcandidates, contains, candidates]
  cases index.homonyms? (Name.simple x) with
  | none => exact iff_of_false Bool.false_ne_true List.not_mem_nil
  | some h => exact List.contains_iff_mem

/-! ### Order -/

theorem pairwise_candidates (index : TypeIndex) (simple : String) :
    (index.candidates simple).Pairwise (· < ·) := by
  unfold candidates
  split
  · next h _ => exact h.names.sorted
  · exact .nil

theorem nodup_bySimpleName (index : TypeIndex) : index.bySimpleName.Nodup := by
  refine List.nodup_flatMap.mpr ⟨fun h _ => h.names.nodup, index.sorted.imp fun {g h} hlt => ?_⟩
  -- a type in both sets has both simple names
  intro x hg hh
  rw [← g.named x hg, ← h.named x hh] at hlt
  exact String.lt_irrefl _ hlt

theorem nodup_toList (index : TypeIndex) : index.toList.Nodup :=
  (inOrder_perm _).nodup_iff.mpr index.nodup_bySimpleName

theorem pairwise_toList (index : TypeIndex) : index.toList.Pairwise (· < ·) :=
  ((pairwise_inOrder _).and index.nodup_toList).imp fun ⟨hle, hne⟩ => lt_of_le_of_ne hle hne

theorem nodup_candidates (index : TypeIndex) (simple : String) : (index.candidates simple).Nodup :=
  (index.pairwise_candidates simple).imp ne_of_lt

/-! ### Counting -/

theorem size_eq (index : TypeIndex) : index.size = index.toList.length := by
  rw [toList, (inOrder_perm _).length_eq, bySimpleName, List.length_flatMap, List.sum_eq_foldl,
    List.foldl_map]
  rfl

theorem isEmpty_eq_true : index.isEmpty = true ↔ index.toList = [] := by
  rw [isEmpty, List.isEmpty_iff, List.eq_nil_iff_forall_not_mem, List.eq_nil_iff_forall_not_mem]
  refine ⟨fun hnone x hx => ?_, fun hnone h hh => ?_⟩
  · obtain ⟨h, hh, _⟩ := mem_toList.mp hx
    exact hnone h hh
  · obtain ⟨x, hx⟩ := List.exists_mem_of_ne_nil _ h.inhabited
    exact hnone x (mem_toList.mpr ⟨h, hh, hx⟩)

/-! ### Equality -/

/-- Which sets an index keeps is a matter of its members. -/
theorem mem_homonyms {h : Homonyms} : h ∈ index.homonyms ↔
    ∀ x, x ∈ h.names.toList ↔ x ∈ index.toList ∧ Name.simple x = h.simpleName := by
  constructor
  · intro hmem x
    rw [← mem_candidates, candidates, homonyms?_eq_some.mpr ⟨hmem, rfl⟩]
  · intro hall
    obtain ⟨x, hx⟩ := List.exists_mem_of_ne_nil _ h.inhabited
    obtain ⟨g, hg, hxg⟩ := mem_toList.mp ((hall x).mp hx).1
    have hsimple : g.simpleName = h.simpleName := (g.named x hxg).symm.trans (h.named x hx)
    have hnames : g.names = h.names := NameSet.eq_of_mem_iff fun y => by
      rw [hall, ← mem_candidates, candidates, homonyms?_eq_some.mpr ⟨hg, hsimple⟩]
    obtain ⟨_, _, _, _⟩ := g
    obtain ⟨_, _, _, _⟩ := h
    cases hsimple
    cases hnames
    exact hg

/-- **Indexes with the same members are the same.** -/
theorem eq_of_mem_iff (h : ∀ x, x ∈ index.toList ↔ x ∈ other.toList) : index = other := by
  have hnodup (index : TypeIndex) : index.homonyms.Nodup :=
    index.sorted.imp fun {g h} (hlt : g.simpleName < h.simpleName) (heq : g = h) =>
      String.lt_irrefl _ (heq ▸ hlt)
  have hperm := (List.perm_ext_iff_of_nodup (hnodup index) (hnodup other)).mpr fun g => by
    rw [mem_homonyms, mem_homonyms]
    simp only [h]
  have hlists : index.homonyms = other.homonyms := hperm.eq_of_pairwise
    (fun _ _ _ _ hab hba => (String.lt_asymm hab hba).elim) index.sorted other.sorted
  obtain ⟨gs, hgs⟩ := index
  obtain ⟨hs, hhs⟩ := other
  cases hlists
  rfl

/-! ### Growing -/

theorem mem_insert : x ∈ (index.insert name).toList ↔ x = name ∨ x ∈ index.toList := by
  rw [mem_toList, mem_toList, insert]
  obtain ⟨hs, hsorted⟩ := index
  dsimp only
  clear hsorted
  induction hs with
  | nil =>
    simp only [insertHomonym, List.mem_singleton, exists_eq_left, Homonyms.single, NameSet.mem_insert]
    simp [NameSet.empty]
  | cons h hs ih =>
    unfold insertHomonym
    split
    · rw [List.exists_mem_cons_iff, Homonyms.single, NameSet.mem_insert]
      exact or_congr (or_iff_left List.not_mem_nil) Iff.rfl
    · split
      · rw [List.exists_mem_cons_iff, List.exists_mem_cons_iff, Homonyms.insert, NameSet.mem_insert, or_assoc]
      · rw [List.exists_mem_cons_iff, List.exists_mem_cons_iff, ih, or_left_comm]

theorem mem_insertAll : x ∈ (index.insertAll names).toList ↔ x ∈ names ∨ x ∈ index.toList := by
  induction names generalizing index with
  | nil => exact (or_iff_right List.not_mem_nil).symm
  | cons name names ih =>
    have hstep : index.insertAll (name :: names) = (index.insert name).insertAll names := rfl
    rw [hstep, ih, mem_insert, List.mem_cons, or_assoc, or_left_comm]

theorem toList_empty : empty.toList = [] := rfl

theorem mem_ofList : x ∈ (ofList names).toList ↔ x ∈ names := by
  rw [ofList, mem_insertAll, toList_empty]
  exact or_iff_left List.not_mem_nil

theorem mem_declare {declared : List DeclaredType} :
    x ∈ (index.declare declared).toList ↔ x ∈ declared.map (·.qualifiedName) ∨ x ∈ index.toList := by
  rw [declare, mem_insertAll]

/-! ### What an index was given -/

/-- A way to change an index. -/
inductive Update where
  | insert (name : String)
  | declare (declared : List DeclaredType)
  /-- Start again from a list. -/
  | load (names : List String)

/-- The index after an update. -/
def update (index : TypeIndex) : Update → TypeIndex
  | .insert name => index.insert name
  | .declare declared => index.declare declared
  | .load names => ofList names

/-- The names given up to an update, as often as they were given. -/
def Update.given (names : List String) : Update → List String
  | .insert name => names ++ [name]
  | .declare declared => names ++ declared.map (·.qualifiedName)
  | .load more => more

/-- The index after several updates of an empty one. -/
def run (updates : List Update) : TypeIndex := updates.foldl update empty

/-- The names given by several updates. -/
def given (updates : List Update) : List String := updates.foldl Update.given []

/-- **One update** keeps the members of an index those that it was given. -/
theorem mem_update (h : ∀ x, x ∈ index.toList ↔ x ∈ names) (u : Update) (x : String) :
    x ∈ (index.update u).toList ↔ x ∈ u.given names := by
  cases u with
  | insert name => rw [update, mem_insert, h, Update.given, List.mem_append, List.mem_singleton, or_comm]
  | declare declared => rw [update, mem_declare, h, Update.given, List.mem_append, or_comm]
  | load more => exact mem_ofList

/-- **The members of an index are those that it was given.** -/
theorem mem_run (updates : List Update) (x : String) : x ∈ (run updates).toList ↔ x ∈ given updates := by
  have hfold (us : List Update) : ∀ {index : TypeIndex} {names : List String},
      (∀ x, x ∈ index.toList ↔ x ∈ names) →
      ∀ x, x ∈ (us.foldl update index).toList ↔ x ∈ us.foldl Update.given names := by
    induction us with
    | nil => exact fun h => h
    | cons u us ih => exact fun h => ih (mem_update h u)
  exact hfold updates (fun _ => Iff.rfl) x

/-- Names in increasing order of their bytes, none of them twice. -/
def InByteOrder (names : List String) : Prop := names.Pairwise (bytes · < bytes ·)

theorem inByteOrder_iff : InByteOrder names ↔ names.Pairwise (· < ·) := by
  simp only [InByteOrder, bytes_lt_iff]

/-! ### What an index answers -/

theorem ofList_toList (index : TypeIndex) : ofList index.toList = index :=
  eq_of_mem_iff fun _ => mem_ofList

theorem strs?_strs (names : List String) : (Json.strs names).strs? = some names := by
  have hmap : (names.map Json.str).mapM Json.str? = some names := by
    induction names with
    | nil => rfl
    | cons name names ih => rw [List.map_cons, List.mapM_cons, ih]; rfl
  exact hmap

/-- **What is written of an index is read as the same index.** -/
theorem ofJson?_toJson (index : TypeIndex) : ofJson? index.toJson = some index := by
  rw [ofJson?, toJson, strs?_strs, Option.map_some, ofList_toList]

theorem getLast?_segments : (Name.segments name).getLast? = some simple ↔ Name.simple name = simple := by
  obtain ⟨front, last, hsplit⟩ := (List.eq_nil_or_concat (Name.segments name)).resolve_left
    (Name.segments_ne_nil name)
  rw [List.concat_eq_append] at hsplit
  rw [hsplit, List.getLast?_concat, Name.simple_of_segments hsplit, Option.some.injEq]

theorem isEmpty_iff_of_mem_iff (h : ∀ x, x ∈ index.toList ↔ x ∈ names) :
    index.isEmpty = true ↔ names = [] := by
  rw [isEmpty_eq_true, List.eq_nil_iff_forall_not_mem, List.eq_nil_iff_forall_not_mem]
  simp only [h]

theorem size_of_mem_iff (h : ∀ x, x ∈ index.toList ↔ x ∈ names) : index.size = names.toFinset.card := by
  have hsame : names.toFinset = index.toList.toFinset := by
    ext x
    rw [List.mem_toFinset, List.mem_toFinset, h]
  rw [size_eq, hsame, List.toFinset_card_of_nodup index.nodup_toList]

/-- **An index answers as the set of the names that it was given.** Neither the order in which they were
given nor how often can be seen. -/
theorem run_answers (updates : List Update) :
    (∀ name, (run updates).contains name = true ↔ name ∈ given updates) ∧
    (∀ simple, InByteOrder ((run updates).candidates simple) ∧
      ∀ name, name ∈ (run updates).candidates simple ↔
        name ∈ given updates ∧ (Name.segments name).getLast? = some simple) ∧
    (run updates).size = (given updates).toFinset.card ∧
    ((run updates).isEmpty = true ↔ given updates = []) ∧
    (∃ names, (run updates).toJson = .strs names ∧ InByteOrder names ∧
      ∀ name, name ∈ names ↔ name ∈ given updates) ∧
    ofJson? (run updates).toJson = some (run updates) ∧
    ∀ others, run others = run updates ↔ ∀ name, name ∈ given others ↔ name ∈ given updates := by
  have hmem := mem_run updates
  refine ⟨fun name => ?_, fun simple => ⟨?_, fun name => ?_⟩, size_of_mem_iff hmem,
    isEmpty_iff_of_mem_iff hmem, ⟨_, rfl, ?_, hmem⟩, ofJson?_toJson _,
    fun others => ⟨fun heq name => ?_, fun hsame => ?_⟩⟩
  · rw [contains_eq_true, hmem]
  · exact inByteOrder_iff.mpr (pairwise_candidates _ _)
  · rw [mem_candidates, hmem, getLast?_segments]
  · exact inByteOrder_iff.mpr (pairwise_toList _)
  · rw [← hmem, ← mem_run, heq]
  · refine eq_of_mem_iff fun name => ?_
    rw [mem_run, hmem, hsame]

end TypeIndex

end Migration
