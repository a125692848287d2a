import Mathlib.Data.List.Nodup
import Migration.Proofs.Scope.Binding

/-!
# One import for a simple name

The imports of single types of a module are distinct when no two of them have the same simple name. What is
newly imported is compared with the imports of the module, and takes the place of one that has its simple
name, or there is a conflict; so it has another simple name than all that are kept
(`Demand.simple_ne_of_mem_kept`). New imports are not compared with one another, and two of them can have
the same simple name. That is the only way in which imports stop being distinct
(`Module.reconcile_distinct_iff`, `Recipe.apply_distinct_iff`).
-/

namespace Migration

open Imports (Demand Edited namesWhere)

/-- The simple names of the imports of single types. -/
def Imports.simpleNames (imports : List Import) : List String :=
  (namesWhere Import.isSingleType imports).map Name.simple

/-- No two imports of single types have the same simple name. -/
def Module.ImportsDistinct (m : Module) : Prop := (Imports.simpleNames m.imports).Nodup

instance (m : Module) : Decidable m.ImportsDistinct :=
  inferInstanceAs (Decidable (Imports.simpleNames m.imports).Nodup)

namespace Imports

/-- Imports that are edited have the simple names of the old ones and of the new ones. -/
theorem Edited.distinct_iff {old imports : List Import} {names : List String}
    (h : Edited old names imports) :
    (simpleNames imports).Nodup ↔ (names.map Name.simple ++ simpleNames old).Nodup := by
  obtain ⟨added, hnames, hsingle, _, hperm⟩ := h
  have hbare (is : List Import) :
      namesWhere Import.isSingleType (is.map Import.bare) = namesWhere Import.isSingleType is :=
    namesWhere_bare (fun _ => rfl) is
  have hadded : namesWhere Import.isSingleType added = names := by
    rw [namesWhere, List.filter_eq_self.mpr fun i hi => ?_, hnames]
    obtain ⟨id, heq⟩ := hsingle i hi
    rw [heq]
    rfl
  have hperm' := (hperm.filter Import.isSingleType).map (·.name)
  rw [List.filter_append, List.map_append] at hperm'
  change (namesWhere _ _).Perm (namesWhere _ _ ++ namesWhere _ _) at hperm'
  rw [hbare, hbare, hadded] at hperm'
  rw [simpleNames, (hperm'.map Name.simple).nodup_iff, List.map_append, simpleNames]

/-- In distinct imports a simple name stands at one position only. -/
theorem eq_of_simple_eq {imports : List Import}
    (h : (simpleNames imports).Nodup) {k l : Nat} {i j : Import} (hi : imports[k]? = some i) (hj : imports[l]? = some j)
    (hisingle : i.isSingleType = true) (hjsingle : j.isSingleType = true)
    (hsimple : Name.simple i.name = Name.simple j.name) : k = l := by
  obtain ⟨hk, rfl⟩ := List.getElem?_eq_some_iff.mp hi
  obtain ⟨hl, rfl⟩ := List.getElem?_eq_some_iff.mp hj
  rw [simpleNames, namesWhere, List.map_map] at h
  have h := List.pairwise_iff_getElem.mp (List.pairwise_filter.mp (List.pairwise_map.mp h))
  rcases Nat.lt_trichotomy k l with hlt | heq | hlt
  · exact absurd hsimple (h k l hk hl hlt hisingle hjsingle)
  · exact heq
  · exact absurd hsimple.symm (h l k hl hk hlt hjsingle hisingle)

/-- **A new import has another simple name than all that are kept.** -/
theorem Demand.simple_ne_of_mem_kept {d : Demand} {names : List String} {p : Plan}
    (hplan : d.plan names = .ok p) (hd : d.module.ImportsDistinct) {full : String}
    (hfull : full ∈ p.additions.toList) {i : Import} (hi : i ∈ d.kept p)
    (hsingle : i.isSingleType = true) : Name.simple full ≠ Name.simple i.name := by
  intro hsimple
  have hplanned := (plan_cases hplan).1.additions full hfull
  obtain ⟨k, hk, hkept⟩ := mem_kept_iff.mp hi
  have hmem := List.mem_filter.mpr ⟨List.mem_of_getElem? hk, hsingle⟩
  obtain ⟨_, _, ⟨hclash, _⟩ | ⟨existing, l, hclash, hreplaced, _⟩⟩ := id hplanned
  · exact Planned.not_mem_typeImports hplanned i hmem
      (eq_of_clash?_eq_none hclash (mem_importedAs.mpr ⟨i, hmem, hsimple.symm, rfl⟩))
  · -- the import that is replaced stands at the same position
    obtain ⟨hl, hexisting⟩ := clash?_eq_some hclash
    obtain ⟨_, hl', hgiven⟩ := isGivenUp_of_replaced hplan l hreplaced
    cases hl.symm.trans hl'
    have heq := eq_of_simple_eq hd hk hl hsingle (isSingleType_of_isGivenUp hgiven)
      (hsimple.symm.trans hexisting.symm)
    subst heq
    cases hk.symm.trans hl
    rw [isRemoved, hgiven, List.contains_iff_mem.mpr hreplaced] at hkept
    cases hkept

end Imports

/-- **When imports stay distinct**: exactly when no two new ones have the same simple name. -/
theorem Module.reconcile_distinct_iff {m out : Module} {symbols : SymbolTable} {s : PassState}
    {changes : ImportChanges} (h : m.reconcile symbols s = .ok (out, changes)) (hm : m.ImportsDistinct) :
    out.ImportsDistinct ↔ (changes.added.map Name.simple).Nodup := by
  obtain ⟨plan, hplan, hadded, _, _, hedited⟩ := reconcile_spec h
  have hkept : (Imports.simpleNames ((Demand.ofPass m symbols s).kept plan)).Nodup :=
    List.Nodup.sublist ((((Demand.kept_sublist plan).filter _).map _).map _) hm
  rw [ImportsDistinct, hedited.distinct_iff, hadded, List.nodup_append]
  refine ⟨fun h => h.1, fun hnames => ⟨hnames, hkept, ?_⟩⟩
  rintro _ hnew _ hold rfl
  obtain ⟨full, hfull, rfl⟩ := List.mem_map.mp hnew
  obtain ⟨name, hname, hsimple⟩ := List.mem_map.mp hold
  obtain ⟨i, hi, rfl⟩ := List.mem_map.mp hname
  obtain ⟨hi, hsingle⟩ := List.mem_filter.mp hi
  exact Demand.simple_ne_of_mem_kept hplan hm hfull hi hsingle hsimple.symm

namespace Recipe

/-- **When a recipe leaves imports distinct**: exactly when no two of those that it adds have the same simple
name. That is the case when no two of the types whose names it writes have one. -/
theorem apply_distinct_iff {r : Recipe}
    {pass : SymbolTable → Module → Pass PassState (Option Module)} (hr : r.pass? = some pass)
    {index : TypeIndex} {m : Module} (hm : m.ImportsDistinct) {a : Applied}
    (happly : r.apply index m = some (.ok a)) :
    (a.module.ImportsDistinct ↔ (a.report.importsAdded.map Name.simple).Nodup) ∧
    ((∀ p q full full', r.Writes p → r.Writes q →
        (SymbolTable.ofModule m index).qualify p.spelled = .type full →
        (SymbolTable.ofModule m index).qualify q.spelled = .type full' →
        Name.simple full = Name.simple full' → full = full') →
      a.module.ImportsDistinct) := by
  have hrun := happly
  rw [apply_of_pass? hr] at hrun
  obtain ⟨⟨changed, s⟩, hrun, houtcome⟩ := Option.map_eq_some_iff.mp hrun
  cases changed with
  | none =>
    cases houtcome
    exact ⟨iff_of_true hm List.nodup_nil, fun _ => hm⟩
  | some changed =>
    have hiff : a.module.ImportsDistinct ↔ (a.report.importsAdded.map Name.simple).Nodup := by
      obtain ⟨types, hchanged, _⟩ := pass_changes hr hrun
      cases hchanged
      dsimp only at houtcome
      split at houtcome
      case h_1 => cases houtcome
      case h_2 out imports hreconcile =>
        cases houtcome
        exact Module.reconcile_distinct_iff hreconcile hm
    refine ⟨hiff, fun hwrites => hiff.mpr ?_⟩
    obtain ⟨plan, hadded, run⟩ := run_spec hr hrun happly
    obtain ⟨_, _, hasks, _⟩ := pass_changes hr hrun
    have hplanned (full : String) (hfull : full ∈ plan.additions.toList) : ∃ p, r.Writes p ∧
        (SymbolTable.ofModule m index).qualify p.spelled = .type full := by
      obtain ⟨new, hnew, hqualify⟩ := run.planned full hfull
      obtain ⟨p, hp, rfl, _⟩ := (hasks new hnew).resolve_left List.not_mem_nil
      exact ⟨p, hp, hqualify⟩
    rw [hadded]
    refine List.Nodup.map_on (fun full hfull full' hfull' hsimple => ?_) plan.additions.nodup
    obtain ⟨p, hp, hqualify⟩ := hplanned full hfull
    obtain ⟨q, hq, hqualify'⟩ := hplanned full' hfull'
    exact hwrites p q full full' hp hq hqualify hqualify' hsimple

/-- The new type is imported in the place of another one of the same simple name. -/
theorem apply_distinct_iff_replaced : ∃ c m a,
    SupertypeChange.ofNames "a.Car" "b.Car" = .ok c ∧
    Module.parse "import a.Car; import a.Wheel; class A extends Car { Wheel w; }" = .ok m ∧
    (changeSupertype c).apply (.ofList []) m = some (.ok a) ∧
    a.report.importsAdded = ["b.Car"] ∧ a.module.ImportsDistinct := by
  have hcheck : (do
      let c ← (SupertypeChange.ofNames "a.Car" "b.Car").toOption
      let m ← (Module.parse
        "import a.Car; import a.Wheel; class A extends Car { Wheel w; }").toOption
      let a ← ((changeSupertype c).apply (.ofList []) m).bind Except.toOption
      return decide m.ImportsDistinct && decide (a.report.importsAdded = ["b.Car"]) : Option Bool)
      = some true := by
    decide +kernel
  obtain ⟨c, hc, hcheck⟩ := Option.bind_eq_some_iff.mp hcheck
  obtain ⟨m, hm, hcheck⟩ := Option.bind_eq_some_iff.mp hcheck
  obtain ⟨a, ha, hcheck⟩ := Option.bind_eq_some_iff.mp hcheck
  obtain ⟨outcome, happly, hok⟩ := Option.bind_eq_some_iff.mp ha
  rw [eq_ok_of_toOption hok] at happly
  simp only [pure, Option.some.injEq, Bool.and_eq_true, decide_eq_true_eq] at hcheck
  obtain ⟨hdistinct, hadded⟩ := hcheck
  obtain ⟨hiff, _⟩ := apply_distinct_iff (r := .changeSupertype c) rfl hdistinct happly
  refine ⟨c, m, a, eq_ok_of_toOption hc, eq_ok_of_toOption hm, happly, hadded, hiff.mpr ?_⟩
  rw [hadded]
  exact List.nodup_singleton _

/-- Two constants move to owners of the same simple name, and both owners are imported. -/
theorem apply_distinct_doubled : ∃ t m a,
    ConstantTable.ofMappings [⟨"M", "X", "p.L", "X"⟩, ⟨"N", "Y", "q.L", "Y"⟩] = .ok t ∧
    Module.parse "class A { int a = M.X; int b = N.Y; }" = .ok m ∧ m.ImportsDistinct ∧
    (changeConstants t).apply (.ofList []) m = some (.ok a) ∧
    a.module.print = "import p.L;\nimport q.L;\n\nclass A { int a = L.X; int b = L.Y; }" ∧
    ¬ a.module.ImportsDistinct := by
  have hcheck : (do
      let t ← (ConstantTable.ofMappings [⟨"M", "X", "p.L", "X"⟩, ⟨"N", "Y", "q.L", "Y"⟩]).toOption
      let m ← (Module.parse "class A { int a = M.X; int b = N.Y; }").toOption
      let a ← ((changeConstants t).apply (.ofList []) m).bind Except.toOption
      return decide m.ImportsDistinct && !decide a.module.ImportsDistinct
        && a.module.print == "import p.L;\nimport q.L;\n\nclass A { int a = L.X; int b = L.Y; }" :
      Option Bool) = some true := by
    decide +kernel
  obtain ⟨t, ht, hcheck⟩ := Option.bind_eq_some_iff.mp hcheck
  obtain ⟨m, hm, hcheck⟩ := Option.bind_eq_some_iff.mp hcheck
  obtain ⟨a, ha, hcheck⟩ := Option.bind_eq_some_iff.mp hcheck
  obtain ⟨outcome, happly, hok⟩ := Option.bind_eq_some_iff.mp ha
  rw [eq_ok_of_toOption hok] at happly
  simp only [pure, Option.some.injEq, Bool.and_eq_true, decide_eq_true_eq, Bool.not_eq_true',
    decide_eq_false_iff_not, beq_iff_eq] at hcheck
  obtain ⟨⟨hdistinct, hdoubled⟩, hprint⟩ := hcheck
  exact ⟨t, m, a, eq_ok_of_toOption ht, eq_ok_of_toOption hm, hdistinct, happly, hprint, hdoubled⟩

end Recipe

end Migration
