import Migration.Json.Basic
import Migration.Text.Name
import Migration.Text.NameSet
import Migration.Traversal.Declarations

/-!
# Known types

The full names of all types that are known to exist, whatever module declares them. They are looked up
by their simple names, and so they are kept that way: for each simple name that a known type has, the set
of all known types that have it.
-/

namespace Migration

/-- Known types with the same simple name; there is at least one. -/
structure Homonyms where
  simpleName : String
  names : NameSet
  inhabited : names.toList ≠ []
  named : ∀ name ∈ names.toList, Name.simple name = simpleName

namespace Homonyms

/-- One type. -/
def single (name : String) : Homonyms where
  simpleName := Name.simple name
  names := NameSet.empty.insert name
  inhabited := List.ne_nil_of_mem (NameSet.mem_insert.mpr (.inl rfl))
  named x hx := by
    rcases NameSet.mem_insert.mp hx with rfl | hx
    · rfl
    · cases hx

/-- One more type. -/
def insert (h : Homonyms) (name : String) (hname : Name.simple name = h.simpleName) : Homonyms where
  simpleName := h.simpleName
  names := h.names.insert name
  inhabited := List.ne_nil_of_mem (NameSet.mem_insert.mpr (.inl rfl))
  named x hx := by
    rcases NameSet.mem_insert.mp hx with rfl | hx
    · exact hname
    · exact h.named x hx

end Homonyms

/-- One more type among those that are ordered by their simple names. -/
def insertHomonym (name : String) : List Homonyms → List Homonyms
  | [] => [.single name]
  | h :: hs =>
    if Name.simple name < h.simpleName then .single name :: h :: hs
    else if hname : Name.simple name = h.simpleName then h.insert name hname :: hs
    else h :: insertHomonym name hs

theorem simpleName_of_mem_insertHomonym {name : String} {hs : List Homonyms} {g : Homonyms}
    (hg : g ∈ insertHomonym name hs) :
    g.simpleName = Name.simple name ∨ ∃ h ∈ hs, g.simpleName = h.simpleName := by
  induction hs with
  | nil =>
    rw [insertHomonym, List.mem_singleton] at hg
    exact .inl (hg ▸ rfl)
  | cons h hs ih =>
    unfold insertHomonym at hg
    split at hg
    · rcases List.mem_cons.mp hg with rfl | hg
      · exact .inl rfl
      · exact .inr ⟨g, hg, rfl⟩
    · split at hg
      · rcases List.mem_cons.mp hg with rfl | hg
        · exact .inr ⟨h, List.mem_cons_self, rfl⟩
        · exact .inr ⟨g, List.mem_cons_of_mem _ hg, rfl⟩
      · rcases List.mem_cons.mp hg with rfl | hg
        · exact .inr ⟨g, List.mem_cons_self, rfl⟩
        · exact (ih hg).imp_right fun ⟨k, hk, heq⟩ => ⟨k, List.mem_cons_of_mem _ hk, heq⟩

theorem pairwise_insertHomonym {name : String} {hs : List Homonyms}
    (h : hs.Pairwise (·.simpleName < ·.simpleName)) :
    (insertHomonym name hs).Pairwise (·.simpleName < ·.simpleName) := by
  induction hs with
  | nil => exact List.pairwise_singleton _ _
  | cons k hs ih =>
    obtain ⟨hk, hhs⟩ := List.pairwise_cons.mp h
    unfold insertHomonym
    split
    · next hlt =>
      refine List.pairwise_cons.mpr ⟨fun g hg => ?_, h⟩
      rcases List.mem_cons.mp hg with rfl | hg
      · exact hlt
      · exact String.lt_trans hlt (hk g hg)
    · split
      · exact List.pairwise_cons.mpr ⟨hk, hhs⟩
      · next hlt hne =>
        refine List.pairwise_cons.mpr ⟨fun g hg => ?_, ih hhs⟩
        rcases simpleName_of_mem_insertHomonym hg with heq | ⟨k', hk', heq⟩
        · rw [heq]
          grind
        · rw [heq]
          exact hk k' hk'

/-- A name put into a list that is in increasing order, in front of its equals. -/
def insertInOrder (name : String) : List String → List String
  | [] => [name]
  | x :: xs => if name ≤ x then name :: x :: xs else x :: insertInOrder name xs

/-- The names in increasing order, each as often as it occurs. -/
def inOrder (names : List String) : List String := names.foldr insertInOrder []

/-- The full names of the known types. -/
structure TypeIndex where
  /-- The known types put together by simple names, in increasing order of these. -/
  homonyms : List Homonyms
  sorted : homonyms.Pairwise (·.simpleName < ·.simpleName)

namespace TypeIndex

/-- No known types. -/
def empty : TypeIndex := ⟨[], List.Pairwise.nil⟩

instance : Inhabited TypeIndex := ⟨empty⟩

/-- The index with one more type. -/
def insert (index : TypeIndex) (name : String) : TypeIndex :=
  ⟨insertHomonym name index.homonyms, pairwise_insertHomonym index.sorted⟩

/-- The index with several more types. -/
def insertAll (index : TypeIndex) (names : List String) : TypeIndex := names.foldl insert index

/-- The types of a list. -/
def ofList (names : List String) : TypeIndex := empty.insertAll names

/-- The index with the types that a module declares. -/
def declare (index : TypeIndex) (declared : List DeclaredType) : TypeIndex :=
  index.insertAll (declared.map (·.qualifiedName))

/-- The known types with a simple name, when there are any. -/
def homonyms? (index : TypeIndex) (simple : String) : Option Homonyms :=
  index.homonyms.find? (·.simpleName == simple)

/-- The type is known. -/
def contains (index : TypeIndex) (name : String) : Bool :=
  (index.homonyms? (Name.simple name)).any (·.names.contains name)

/-- The known types with a simple name, in increasing order. -/
def candidates (index : TypeIndex) (simple : String) : List String :=
  match index.homonyms? simple with
  | some h => h.names.toList
  | none => []

/-- The known types ordered by simple name, and by full name where simple names agree. -/
def bySimpleName (index : TypeIndex) : List String := index.homonyms.flatMap (·.names.toList)

/-- The known types in increasing order. -/
def toList (index : TypeIndex) : List String := inOrder index.bySimpleName

/-- How many types are known. -/
def size (index : TypeIndex) : Nat := index.homonyms.foldl (fun count h => count + h.names.size) 0

/-- No type is known. -/
def isEmpty (index : TypeIndex) : Bool := index.homonyms.isEmpty

/-- The index as a JSON list of names, in increasing order. -/
def toJson (index : TypeIndex) : Json := .strs index.toList

/-- The index of the names in a JSON list. -/
def ofJson? (j : Json) : Option TypeIndex := j.strs?.map ofList

end TypeIndex

end Migration
