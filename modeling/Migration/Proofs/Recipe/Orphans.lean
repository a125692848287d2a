import Migration.Proofs.Rule.Released
import Migration.Proofs.Scope.Binding

/-!
# Imports that nothing uses

In a module without orphans every import of a single type is used by its simple name. A recipe brings the
imports in line with what its pass has given up, and looks at no others: an import that lost its last use
and was not given up stays as an orphan, and that is the only way to get one
(`LeafRun.orphanless_iff`).

Main result: a recipe leaves no orphans behind exactly when its pass has given up every import that lost
its last use, and it has done so where all references that it rewrote release that import
(`Recipe.apply_orphanless_iff`). A superclass `Outer.Vehicle` does not release the import of `Outer`.
-/

namespace Migration

open Imports (importedAs Demand)
open Outline (preorderAll)

/-- Every import of a single type is used. -/
def Module.Orphanless (m : Module) : Prop :=
  ∀ i ∈ m.typeImports, Name.simple i.name ∈ m.usedNames.toList

instance (m : Module) : Decidable m.Orphanless :=
  inferInstanceAs (Decidable (∀ i ∈ m.typeImports, Name.simple i.name ∈ m.usedNames.toList))

/-- An import is judged by its name. -/
theorem Module.orphanless_iff_importedAs {m : Module} : m.Orphanless ↔
    ∀ simple, ∀ name ∈ importedAs simple m.imports, simple ∈ m.usedNames.toList := by
  constructor
  · intro h simple name hname
    obtain ⟨i, hi, rfl, _⟩ := Imports.mem_importedAs.mp hname
    exact h i hi
  · intro h i hi
    exact h _ i.name (Imports.mem_importedAs.mpr ⟨i, hi, rfl, rfl⟩)

namespace LeafRun

variable {index : TypeIndex} {m changed out : Module} {s : PassState} {plan : Imports.Plan}
  (run : LeafRun index m s changed out plan)

include run

/-- An import that is not given up is kept. -/
theorem mem_kept {i : Import} (hi : i ∈ m.typeImports) (hgiven : ¬ s.GivesUp i) :
    i ∈ (Demand.ofPass changed (.ofModule m index) s).kept plan := by
  obtain ⟨hmem, _⟩ := List.mem_filter.mp hi
  rw [← run.imports] at hmem
  obtain ⟨k, hk⟩ := List.mem_iff_getElem?.mp hmem
  have hnot : (Demand.ofPass changed (.ofModule m index) s).isGivenUp i = false := by
    rw [← Bool.not_eq_true, Demand.isGivenUp, List.any_eq_true]
    exact hgiven
  refine Demand.mem_kept_iff.mpr ⟨k, hk, ?_⟩
  rw [Demand.isRemoved, hnot, Bool.false_and]

/-- An import that is kept is used, or was not given up. -/
theorem used_of_mem_kept {i : Import}
    (hi : i ∈ (Demand.ofPass changed (.ofModule m index) s).kept plan) :
    i ∈ m.imports ∧ (Name.simple i.name ∈ changed.usedNames.toList ∨ ¬ s.GivesUp i) := by
  refine ⟨by rw [← run.imports]; exact (Demand.kept_sublist plan).subset hi, ?_⟩
  obtain ⟨k, _, hkept⟩ := Demand.mem_kept_iff.mp hi
  rw [Demand.isRemoved, Bool.and_eq_false_iff] at hkept
  rcases hkept with hnot | hused
  · refine .inr fun hgiven => ?_
    rw [Demand.isGivenUp, List.any_eq_false] at hnot
    obtain ⟨name, hname, hby⟩ := hgiven
    exact hnot name hname hby
  · rw [Bool.or_eq_false_iff, Bool.not_eq_false'] at hused
    exact .inl (List.contains_iff_mem.mp hused.2)

/-- **When a recipe leaves no orphans**: exactly when every import that lost its last use was given
up. -/
theorem orphanless_iff : out.Orphanless ↔
    ∀ i ∈ m.typeImports, Name.simple i.name ∉ out.usedNames.toList → s.GivesUp i := by
  rw [Module.orphanless_iff_importedAs]
  constructor
  · intro hout i hi hunused
    by_contra hgiven
    have hmem : i.name ∈ importedAs (Name.simple i.name)
        ((Demand.ofPass changed (.ofModule m index) s).kept plan) :=
      Imports.mem_importedAs.mpr
        ⟨i, List.mem_filter.mpr ⟨run.mem_kept hi hgiven, (List.mem_filter.mp hi).2⟩, rfl, rfl⟩
    exact hunused (hout _ i.name (run.edited.mem_importedAs.mpr (.inl hmem)))
  · intro hgiven simple name hname
    rcases run.edited.mem_importedAs.mp hname with hold | ⟨hnew, rfl⟩
    · obtain ⟨i, hi, rfl, _⟩ := Imports.mem_importedAs.mp hold
      obtain ⟨hkept, hsingle⟩ := List.mem_filter.mp hi
      obtain ⟨hmem, hused | hnot⟩ := run.used_of_mem_kept hkept
      · exact (run.used [] _).mpr hused
      · by_contra hunused
        exact hnot (hgiven i (List.mem_filter.mpr ⟨hmem, hsingle⟩) hunused)
    · -- What is added is used, or else it would not have been planned.
      obtain ⟨_, hsat, _⟩ := run.fits.additions name hnew
      simp only [Demand.isSatisfied, Bool.or_eq_false_iff, Bool.not_eq_false'] at hsat
      exact (run.used [] _).mpr (List.contains_iff_mem.mp hsat.1.1.1.1)

end LeafRun

namespace Recipe

/-- **When a recipe leaves no orphans behind.** Exactly when its pass has given up every import that lost
its last use. That is the case when the references that were rewritten release these imports: those that
were made through one of them are spelled without dots, and their configured type is the one that is
imported. -/
theorem apply_orphanless_iff {r : Recipe}
    {pass : SymbolTable → Module → Pass PassState (Option Module)} (hr : r.pass? = some pass)
    {index : TypeIndex} {m : Module} (hm : m.Orphanless) {changed : Option Module} {s : PassState}
    (hrun : pass (.ofModule m index) m (.start m) = some (changed, s)) {a : Applied}
    (happly : r.apply index m = some (.ok a)) :
    (a.module.Orphanless ↔
      ∀ i ∈ m.typeImports, Name.simple i.name ∉ a.module.usedNames.toList → s.GivesUp i) ∧
    ((∀ i ∈ m.typeImports, Name.simple i.name ∉ a.module.usedNames.toList →
      ∀ n ∈ preorderAll (m.types.map TypeDecl.outline),
        ReleasedAt (r.reference? (.ofModule m index)) i n) → a.module.Orphanless) := by
  cases changed with
  | none =>
    rw [apply_of_pass? hr, applyPass, hrun] at happly
    cases happly
    exact ⟨iff_of_true hm fun i hi hunused => absurd (hm i hi) hunused, fun _ => hm⟩
  | some changed =>
    obtain ⟨plan, _, run⟩ := run_spec hr hrun happly
    refine ⟨run.orphanless_iff, fun hreleases => run.orphanless_iff.mpr fun i hi hunused => ?_⟩
    have hused := mem_usedNamesExcept.mp (hm i hi)
    rcases pass_releases hr hrun (hreleases i hi hunused) hused.2 with huses | hgiven
    · refine absurd ((run.used [] _).mpr (mem_usedNamesExcept.mpr ⟨hused.1, ?_⟩)) hunused
      exact huses
    · exact hgiven

/-- The only use of one import is rewritten and that import goes, while the other one stays in use. -/
theorem apply_orphanless_iff_released : ∃ c m a,
    SupertypeChange.ofNames "a.Vehicle" "b.Car" = .ok c ∧
    Module.parse "import a.Vehicle; import a.Wheel; class A extends Vehicle { Wheel w; }" = .ok m ∧
    (changeSupertype c).apply (.ofList []) m = some (.ok a) ∧
    a.report.importsRemoved = ["a.Vehicle"] ∧ a.module.Orphanless := by
  have hcheck : (do
      let c ← (SupertypeChange.ofNames "a.Vehicle" "b.Car").toOption
      let m ← (Module.parse
        "import a.Vehicle; import a.Wheel; class A extends Vehicle { Wheel w; }").toOption
      let run ← c.pass (.ofModule m (.ofList [])) m (.start m)
      let a ← ((changeSupertype c).apply (.ofList []) m).bind Except.toOption
      return decide m.Orphanless && decide (a.report.importsRemoved = ["a.Vehicle"])
        && decide (∀ i ∈ m.typeImports, ∀ n ∈ preorderAll (m.types.map TypeDecl.outline),
          ReleasedAt ((changeSupertype c).reference? (.ofModule m (.ofList []))) i n) :
      Option Bool) = some true := by
    decide +kernel
  obtain ⟨c, hc, hcheck⟩ := Option.bind_eq_some_iff.mp hcheck
  obtain ⟨m, hm, hcheck⟩ := Option.bind_eq_some_iff.mp hcheck
  obtain ⟨⟨changed, s⟩, hrun, hcheck⟩ := Option.bind_eq_some_iff.mp hcheck
  obtain ⟨a, ha, hcheck⟩ := Option.bind_eq_some_iff.mp hcheck
  obtain ⟨outcome, happly, hok⟩ := Option.bind_eq_some_iff.mp ha
  rw [eq_ok_of_toOption hok] at happly
  simp only [pure, Option.some.injEq, Bool.and_eq_true, decide_eq_true_eq] at hcheck
  obtain ⟨⟨horphanless, hremoved⟩, hreleases⟩ := hcheck
  obtain ⟨_, hspares⟩ := apply_orphanless_iff (r := .changeSupertype c) rfl horphanless hrun happly
  exact ⟨c, m, a, eq_ok_of_toOption hc, eq_ok_of_toOption hm, happly, hremoved,
    hspares fun i hi _ => hreleases i hi⟩

/-- The only use of an import is the front of a dotted superclass. That is rewritten, and the import stays
without a use. -/
theorem apply_orphanless_nested : ∃ c m a,
    SupertypeChange.ofNames "Vehicle" "b.Car" = .ok c ∧
    Module.parse "import a.Outer; class A extends Outer.Vehicle {}" = .ok m ∧ m.Orphanless ∧
    (changeSupertype c).apply (.ofList []) m = some (.ok a) ∧
    a.module.print = "import a.Outer; class A extends b.Car {}" ∧ ¬ a.module.Orphanless := by
  have hcheck : (do
      let c ← (SupertypeChange.ofNames "Vehicle" "b.Car").toOption
      let m ← (Module.parse "import a.Outer; class A extends Outer.Vehicle {}").toOption
      let a ← ((changeSupertype c).apply (.ofList []) m).bind Except.toOption
      return decide m.Orphanless && !decide a.module.Orphanless
        && a.module.print == "import a.Outer; class A extends b.Car {}" : Option Bool)
      = some true := by
    decide +kernel
  obtain ⟨c, hc, hcheck⟩ := Option.bind_eq_some_iff.mp hcheck
  obtain ⟨m, hm, hcheck⟩ := Option.bind_eq_some_iff.mp hcheck
  obtain ⟨a, ha, hcheck⟩ := Option.bind_eq_some_iff.mp hcheck
  obtain ⟨outcome, happly, hok⟩ := Option.bind_eq_some_iff.mp ha
  rw [eq_ok_of_toOption hok] at happly
  simp only [pure, Option.some.injEq, Bool.and_eq_true, decide_eq_true_eq, Bool.not_eq_true',
    decide_eq_false_iff_not, beq_iff_eq] at hcheck
  obtain ⟨⟨horphanless, horphan⟩, hprint⟩ := hcheck
  exact ⟨c, m, a, eq_ok_of_toOption hc, eq_ok_of_toOption hm, horphanless, happly, hprint, horphan⟩

end Recipe

end Migration
