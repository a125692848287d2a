/-!
# Sets of names

A finite set of strings, kept as a list in increasing order of code points without repetition. Two
sets with the same members are therefore the same list, and the order in which names were put in
cannot be seen.
-/

namespace Migration

/-- `name` put into a list in its place; a name that is there already is not repeated. -/
def insertName (name : String) : List String → List String
  | [] => [name]
  | x :: xs =>
    if name < x then name :: x :: xs
    else if name = x then x :: xs
    else x :: insertName name xs

theorem mem_insertName {name x : String} {xs : List String} :
    x ∈ insertName name xs ↔ x = name ∨ x ∈ xs := by
  induction xs with
  | nil => simp [insertName]
  | cons y ys ih =>
    unfold insertName
    split
    · simp
    · split <;> grind

theorem pairwise_insertName {name : String} {xs : List String} (h : xs.Pairwise (· < ·)) :
    (insertName name xs).Pairwise (· < ·) := by
  induction xs with
  | nil => simp [insertName]
  | cons y ys ih =>
    rw [List.pairwise_cons] at h
    unfold insertName
    split
    · next hlt =>
      refine List.pairwise_cons.mpr ⟨fun z hz => ?_, List.pairwise_cons.mpr h⟩
      rcases List.mem_cons.mp hz with rfl | hz
      · exact hlt
      · exact String.lt_trans hlt (h.1 z hz)
    · split
      · exact List.pairwise_cons.mpr h
      · next hlt hne =>
        refine List.pairwise_cons.mpr ⟨fun z hz => ?_, ih h.2⟩
        rcases mem_insertName.mp hz with rfl | hz
        · grind
        · exact h.1 z hz

/-- A finite set of names. -/
structure NameSet where
  /-- The members in increasing order. -/
  toList : List String
  sorted : toList.Pairwise (· < ·)

namespace NameSet

/-- No names. -/
def empty : NameSet := ⟨[], List.Pairwise.nil⟩

instance : Inhabited NameSet := ⟨empty⟩

/-- The set with one more name. -/
def insert (s : NameSet) (name : String) : NameSet :=
  ⟨insertName name s.toList, pairwise_insertName s.sorted⟩

/-- The set with several more names. -/
def insertAll (s : NameSet) (names : List String) : NameSet := names.foldl insert s

/-- The names of a list. -/
def ofList (names : List String) : NameSet := empty.insertAll names

/-- `name` is a member. -/
def contains (s : NameSet) (name : String) : Bool := s.toList.contains name

/-- There are no members. -/
def isEmpty (s : NameSet) : Bool := s.toList.isEmpty

/-- How many members there are. -/
def size (s : NameSet) : Nat := s.toList.length

theorem mem_insert {s : NameSet} {name x : String} :
    x ∈ (s.insert name).toList ↔ x = name ∨ x ∈ s.toList := mem_insertName

theorem mem_insertAll {s : NameSet} {names : List String} {x : String} :
    x ∈ (s.insertAll names).toList ↔ x ∈ names ∨ x ∈ s.toList := by
  induction names generalizing s with
  | nil => simp [insertAll]
  | cons n ns ih =>
    have := ih (s := s.insert n)
    simp only [insertAll, List.foldl_cons] at this ⊢
    rw [this, mem_insert]
    grind

theorem mem_ofList {names : List String} {x : String} : x ∈ (ofList names).toList ↔ x ∈ names := by
  simp [ofList, mem_insertAll, empty]

theorem nodup (s : NameSet) : s.toList.Nodup :=
  s.sorted.imp fun {a b} (hlt : a < b) (heq : a = b) => String.lt_irrefl b (heq ▸ hlt)

/-- **Sets with the same members are the same.** -/
theorem eq_of_mem_iff {s t : NameSet} (h : ∀ x, x ∈ s.toList ↔ x ∈ t.toList) : s = t := by
  have hperm := (List.perm_ext_iff_of_nodup s.nodup t.nodup).mpr h
  have hlists : s.toList = t.toList :=
    hperm.eq_of_pairwise (fun _ _ _ _ hab hba => (String.lt_asymm hab hba).elim) s.sorted t.sorted
  obtain ⟨xs, hxs⟩ := s
  obtain ⟨ys, hys⟩ := t
  cases hlists
  rfl

end NameSet

end Migration
