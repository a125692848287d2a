import Migration.Proofs.Imports.Reconcile
import Migration.Proofs.Tree.Numbered

/-!
# The numbers of imports brought in line

Each new import takes the next number, and a removed one gives its number up. Moving trivia around
touches no number.

Main result: bringing the imports in line takes as many numbers as imports are added, and raises the next
number past them (`Module.reconcile_numbers`).
-/

namespace Migration

namespace Imports

theorem Placement.nextId_add (eol : String) (hasPackage : Bool) (p : Placement) (name : String) :
    (p.add eol hasPackage name).nextId = p.nextId + 1 := by
  unfold add
  dsimp only
  split
  · split <;> rfl
  · rfl

theorem Placement.nextId_settle (hasPackage : Bool) (p : Placement) :
    (p.settle hasPackage).nextId = p.nextId := by
  rw [settle]
  split
  · split <;> rfl
  · rfl

/-- Trivia have no part in the numbers of imports. -/
theorem ids_bare (imports : List Import) :
    (imports.map Import.bare).map (·.id) = imports.map (·.id) := by
  rw [List.map_map]
  rfl

theorem Placement.add_numbers (eol : String) (hasPackage : Bool) (p : Placement) (name : String) :
    Grown p.nextId 1 (p.imports.map (·.id)) ((p.add eol hasPackage name).imports.map (·.id)) := by
  obtain ⟨as, bs, hbefore, hafter⟩ := Placement.exists_add eol hasPackage p name
  intro id
  have hnew : (Import.single p.nextId "" name).id = p.nextId := rfl
  refine Nat.le_of_eq ?_
  rw [← ids_bare p.imports, ← ids_bare (p.add eol hasPackage name).imports, hbefore, hafter,
    List.map_append, List.map_append, List.map_cons, hnew, List.count_append, List.count_append,
    List.count_cons, freshIds, freshIds, List.count_singleton, Nat.add_assoc]

/-- Imports are put in with the next numbers, one after the other. -/
theorem foldl_add_numbers (eol : String) (hasPackage : Bool) (names : List String) (p : Placement) :
    (names.foldl (Placement.add eol hasPackage) p).nextId = p.nextId + UInt32.ofNat names.length ∧
      Grown p.nextId names.length (p.imports.map (·.id))
        ((names.foldl (Placement.add eol hasPackage) p).imports.map (·.id)) := by
  induction names generalizing p with
  | nil => exact ⟨(UInt32.add_zero _).symm, .refl _ _ _⟩
  | cons name names ih =>
    obtain ⟨hnext, hids⟩ := ih (p.add eol hasPackage name)
    rw [Placement.nextId_add] at hnext hids
    rw [List.foldl_cons, List.length_cons, Nat.add_comm]
    refine ⟨?_, (Placement.add_numbers eol hasPackage p name).trans hids⟩
    rw [hnext, next_add]
    rfl

/-- The imports that are kept keep their numbers. -/
theorem ids_keep (started : Bool) (carry : Option Trivia) (marked : List (Import × Bool)) :
    ((keep started carry marked).1.map (·.id)).Sublist (marked.map (·.1.id)) := by
  rw [← ids_bare, map_bare_keep, List.map_map]
  exact List.filter_sublist.map _

theorem ids_marked (d : Demand) (p : Plan) :
    (d.marked p).map (·.1.id) = d.module.imports.map (·.id) := by
  rw [← d.marked_map_fst p, List.map_map]
  rfl

theorem ids_withFirstLead (lead : Option Trivia) (ds : List TypeDecl) :
    (withFirstLead lead ds).flatMap TypeDecl.ids = ds.flatMap TypeDecl.ids := by
  cases ds with
  | nil => rfl
  | cons d ds =>
    rw [withFirstLead, List.flatMap_cons, List.flatMap_cons, TypeDecl.ids_eq, TypeDecl.ids_eq d]
    rfl

theorem carryOut_numbers {m : Module} {marked : List (Import × Bool)}
    (hmarked : marked.map (·.1.id) = m.imports.map (·.id)) (names : List String)
    (next : NodeId) :
    (carryOut m marked names next).nextId
        = max m.nextId (next + UInt32.ofNat names.length) ∧
      Grown next names.length m.ids (carryOut m marked names next).ids := by
  obtain ⟨hnext, hadded⟩ := foldl_add_numbers (lineBreak m) m.package.isSome names
    ⟨(keep false none marked).1, (keep false none marked).2, m.types.head?.map (·.lead), next⟩
  have hout : (carryOut m marked names next).imports = _ := settle_imports m.package.isSome _
  have htypes : (carryOut m marked names next).types.flatMap TypeDecl.ids
      = m.types.flatMap TypeDecl.ids := ids_withFirstLead _ _
  refine ⟨congrArg (max m.nextId) ((Placement.nextId_settle _ _).trans hnext), ?_⟩
  have himports : Grown next names.length (m.imports.map (·.id))
      ((carryOut m marked names next).imports.map (·.id)) := by
    intro id
    have hkept := (ids_keep false none marked).count_le id
    rw [hmarked] at hkept
    rw [hout]
    exact Nat.le_trans (hadded id) (Nat.add_le_add_right hkept _)
  rw [Module.ids, Module.ids, htypes]
  exact (himports.after (m.id :: m.package.toList.map (·.id))).append (.refl _ 0 _)

end Imports

/-- **What bringing the imports in line does to the numbers.** -/
theorem Module.reconcile_numbers {m out : Module} {symbols : SymbolTable} {s : PassState}
    {changes : ImportChanges} (h : m.reconcile symbols s = .ok (out, changes)) :
    out.nextId = max m.nextId (s.nextId + UInt32.ofNat changes.added.length) ∧
      Grown s.nextId changes.added.length m.ids out.ids := by
  obtain ⟨plan, _, hadded, ⟨hnone, _, rfl⟩ | rfl⟩ := reconcile_cases h
  · rw [hadded, hnone]
    exact ⟨congrArg (max m.nextId) (UInt32.add_zero _).symm, .refl _ _ _⟩
  · rw [hadded]
    exact Imports.carryOut_numbers (Imports.ids_marked (.ofPass m symbols s) plan) _ _

end Migration
