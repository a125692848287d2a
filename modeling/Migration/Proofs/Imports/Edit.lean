import Migration.Imports.Reconcile

/-!
# Imports before and after an edit

Editing moves trivia around, so imports are compared without their leading trivia (`Import.bare`).
Removing keeps the unmarked imports in their order (`map_bare_keep`), and each new import is put
somewhere between the others (`Placement.exists_add`), whatever group and place are chosen. What a
simple name is imported as, `importedAs`, is read off the bare imports.
-/

namespace Migration

/-- The import without the trivia in front of it. -/
def Import.bare (i : Import) : Import := i.withLead ""

namespace Imports

/-! ### Removing -/

/-- **The unmarked imports are kept**, in their order. -/
theorem map_bare_keep (started : Bool) (carry : Option Trivia) (marked : List (Import × Bool)) :
    (keep started carry marked).1.map Import.bare
      = (marked.filter (!·.2)).map (·.1.bare) := by
  induction marked generalizing started carry with
  | nil => rfl
  | cons p rest ih =>
    obtain ⟨i, removed⟩ := p
    cases removed with
    | true => exact ih _ _
    | false =>
      rw [keep, List.map_cons, ih]
      rfl

/-! ### Inserting -/

theorem groups_cons_ne_nil (i : Import) (rest : List Import) : groups (i :: rest) ≠ [] := by
  unfold groups
  split
  · split <;> simp
  · simp

theorem flatten_groups (imports : List Import) : (groups imports).flatten = imports := by
  induction imports with
  | nil => rfl
  | cons i rest ih =>
    cases rest with
    | nil => rfl
    | cons j tail =>
      cases hgs : groups (j :: tail) with
      | nil => exact absurd hgs (groups_cons_ne_nil j tail)
      | cons g gs =>
        rw [hgs] at ih
        unfold groups
        simp only [hgs]
        split
        · rw [List.flatten_cons, ih]
          rfl
        · rw [List.flatten_cons, List.cons_append, ← List.flatten_cons, ih]

theorem bestGroup?_lt {name : String} {gs : List (List Import)} {k : Nat}
    (h : bestGroup? name gs = some k) : k < gs.length := by
  rw [bestGroup?] at h
  obtain ⟨⟨l, score⟩, hbest, rfl⟩ := Option.map_eq_some_iff.mp h
  -- Whatever has been chosen so far is the position of a group.
  suffices hall : ∀ best ∈ some (l, score), best.1 < gs.length from hall _ rfl
  rw [← hbest]
  refine List.foldlRecOn (motive := fun b : Option (Nat × Nat) => ∀ best ∈ b, best.1 < gs.length) gs.zipIdx _
    (fun b hb => by cases hb) fun best hbest p hp b hb => ?_
  obtain ⟨g, k⟩ := p
  have hk : k < gs.length := List.snd_lt_of_mem_zipIdx hp
  dsimp only at hb
  split at hb
  · exact hbest b hb
  · cases hb
    exact hk
  · split at hb
    · cases hb
      exact hk
    · exact hbest b hb

theorem map_bare_insertInto (eol : String) (new : Import) (g : List Import) :
    (insertInto eol new g).map Import.bare = (g.map Import.bare).take (positionIn new.name g) ++
      new.bare :: (g.map Import.bare).drop (positionIn new.name g) := by
  unfold insertInto
  split
  · next first rest hplace =>
    rw [hplace]
    rfl
  · rw [List.map_append, List.map_cons, List.map_take, List.map_drop]
    rfl

theorem exists_insertInto (eol : String) (new : Import) (group : List Import) :
    ∃ as bs, group.map Import.bare = as ++ bs
      ∧ (insertInto eol new group).map Import.bare = as ++ new.bare :: bs :=
  ⟨_, _, (List.take_append_drop _ _).symm, map_bare_insertInto eol new group⟩

/-- What is put into one of several groups is put into their imports as a whole. -/
theorem map_flatten_modify {α : Type} {f : Import → α} {into : List Import → List Import} {x : α}
    {gs : List (List Import)} {k : Nat} (hlt : k < gs.length) {as bs : List α}
    (hgroup : gs[k].map f = as ++ bs) (hinto : (into gs[k]).map f = as ++ x :: bs) :
    ∃ front back, gs.flatten.map f = (front ++ as) ++ (bs ++ back)
      ∧ (gs.modify k into).flatten.map f = (front ++ as) ++ x :: (bs ++ back) := by
  have hgs := gs.take_append_drop k
  rw [List.drop_eq_getElem_cons hlt] at hgs
  refine ⟨(gs.take k).flatten.map f, (gs.drop (k + 1)).flatten.map f, ?_, ?_⟩
  · rw [← hgs, List.flatten_append, List.flatten_cons, List.map_append, List.map_append, hgroup, hgs]
    simp only [List.append_assoc]
  · rw [List.modify_eq_take_cons_drop hlt, List.flatten_append, List.flatten_cons, List.map_append,
      List.map_append, hinto]
    simp only [List.append_assoc, List.cons_append]

/-- **A new import is put somewhere between the others.** -/
theorem exists_insertSorted (eol : String) (new : Import) (imports : List Import) :
    ∃ as bs, imports.map Import.bare = as ++ bs
      ∧ (insertSorted eol new imports).map Import.bare = as ++ new.bare :: bs := by
  cases hk : bestGroup? new.name (groups imports) with
  | none =>
    cases imports with
    | nil => exact ⟨[], [], rfl, rfl⟩
    | cons first rest =>
      refine ⟨[], _, rfl, ?_⟩
      simp only [insertSorted, hk]
      rfl
  | some k =>
    simp only [insertSorted, hk]
    have hlt := bestGroup?_lt hk
    obtain ⟨as, bs, hgroup, hinto⟩ := exists_insertInto eol new (groups imports)[k]
    obtain ⟨front, back, hbefore, hafter⟩ := map_flatten_modify hlt hgroup hinto
    rw [flatten_groups] at hbefore
    exact ⟨front ++ as, bs ++ back, hbefore, hafter⟩

end Imports

end Migration
