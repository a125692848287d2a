import Migration.Proofs.Grammar.RoundTrip
import Migration.Proofs.Scope.Declared
import Migration.Proofs.Scope.SimpleNames

/-!
# What names mean after a recipe

A recipe adds an import when the new type is neither visible nor imported, and takes no notice of who
else uses its simple name, or of what else that name may mean. `resolve_untouched_iff` says exactly
when a name that the pass left alone keeps its meaning: it is declared in the module, or no import of
that simple name is added. `resolve_retargeted_iff` says exactly when a name that the pass wrote means
the configured type: nothing shadows it.
-/

namespace Migration

open Imports (importedAs onDemandOf Demand)

namespace LeafRun

variable {index : TypeIndex} {m changed out : Module} {s : PassState} {plan : Imports.Plan}
  (run : LeafRun index m s changed out plan)

include run

theorem onDemandOf_eq : onDemandOf out.imports = onDemandOf m.imports := by
  rw [run.edited.onDemandOf_eq, Demand.onDemandOf_kept]
  exact congrArg onDemandOf run.imports

/-- Beyond the imports of single types, a name is looked up as before. -/
theorem inPackages_eq (simple : String) :
    (SymbolTable.ofModule out index).inPackages simple
      = (SymbolTable.ofModule m index).inPackages simple := by
  have hdemand : (SymbolTable.ofModule out index).onDemand
      = (SymbolTable.ofModule m index).onDemand := run.onDemandOf_eq
  simp only [SymbolTable.inPackages, SymbolTable.samePackage, SymbolTable.visibleOnDemand,
    run.package, hdemand]
  rfl

theorem importedAs_eq {simple : String} (hused : simple ∈ changed.usedNames.toList)
    (hfree : ∀ full ∈ plan.additions.toList, Name.simple full ≠ simple) :
    importedAs simple out.imports = importedAs simple m.imports := by
  rw [run.edited.importedAs_eq hfree, Demand.importedAs_kept run.fits]
  · exact congrArg _ run.imports
  · exact List.contains_iff_mem.mpr hused
  · exact fun full hfull heq => absurd heq (hfree full hfull)

theorem not_satisfied {full : String} (hfull : full ∈ plan.additions.toList) :
    Name.qualifier? full ≠ (SymbolTable.ofModule m index).package
      ∧ Name.qualifier? full ≠ some implicitPackage
      ∧ full ∉ importedAs (Name.simple full) m.imports := by
  obtain ⟨_, hsat, _⟩ := run.fits.additions full hfull
  simp only [Demand.isSatisfied, Bool.or_eq_false_iff, beq_eq_false_iff_ne] at hsat
  obtain ⟨⟨⟨⟨_, hpackage⟩, himplicit⟩, _⟩, himported⟩ := hsat
  refine ⟨hpackage, himplicit, fun hmem => ?_⟩
  rw [← run.imports] at hmem
  obtain ⟨i, hi, rfl⟩ := List.mem_map.mp hmem
  obtain ⟨hi, htest⟩ := List.mem_filter.mp hi
  rw [Bool.and_eq_true] at htest
  have hnot := List.any_eq_false.mp himported i (List.mem_filter.mpr ⟨hi, htest.1⟩)
  exact hnot (beq_self_eq_true _)

/-- A type that is imported under a name which is used elsewhere too was not visible before, and
nothing was imported under that name. -/
theorem planned_untouched {full : String} (hfull : full ∈ plan.additions.toList)
    (huntouched : Name.simple full ∈ (changed.usedNamesExcept s.retargeted).toList) :
    importedAs (Name.simple full) m.imports = []
      ∧ ¬ (SymbolTable.ofModule m index).Visible full := by
  obtain ⟨hpackage, himplicit, himported⟩ := run.not_satisfied hfull
  obtain ⟨_, _, ⟨hclash, hdemand⟩ | ⟨_, _, _, _, htaken⟩⟩ := run.fits.additions full hfull
  · refine ⟨?_, ?_⟩
    · rw [List.eq_nil_iff_forall_not_mem]
      intro name hname
      rw [← run.imports] at hname
      have heq := Demand.eq_of_clash?_eq_none hclash hname
      rw [heq, run.imports] at hname
      exact himported hname
    · rintro (hown | ⟨package, hq, hvis⟩)
      · exact hpackage hown
      · rcases hvis with rfl | hmem
        · exact himplicit hq
        · have hmem' : package ∈ onDemandOf m.imports := hmem
          rw [← run.imports] at hmem'
          obtain ⟨i, hi, rfl⟩ := List.mem_map.mp hmem'
          obtain ⟨hi, htest⟩ := List.mem_filter.mp hi
          have hnot := List.any_eq_false.mp hdemand i hi
          refine hnot ?_
          rw [Bool.and_eq_true] at htest
          rw [hq, htest.1, htest.2]
          simp
  · have hnot : (changed.usedNamesExcept s.retargeted).contains (Name.simple full) = false := htaken
    rw [NameSet.contains, List.contains_iff_mem.mpr huntouched] at hnot
    cases hnot

/-- A name under which nothing is added keeps its meaning. -/
theorem resolveSimple_eq {simple : String} (hused : simple ∈ changed.usedNames.toList)
    (hfree : ∀ full ∈ plan.additions.toList, Name.simple full ≠ simple) :
    (SymbolTable.ofModule out index).resolveSimple simple
      = (SymbolTable.ofModule m index).resolveSimple simple := by
  have himports := run.importedAs_eq hused hfree
  cases hlocal : lookupFirst simple (SymbolTable.ofModule m index).locals with
  | some name =>
    rw [SymbolTable.resolveSimple_declared hlocal,
      SymbolTable.resolveSimple_declared (by rw [run.locals]; exact hlocal)]
  | none =>
    have hlocal' : lookupFirst simple (SymbolTable.ofModule out index).locals = none := by
      rw [run.locals]
      exact hlocal
    cases hlast : (importedAs simple m.imports).getLast? with
    | some name =>
      rw [SymbolTable.resolveSimple_imported hlocal hlast,
        SymbolTable.resolveSimple_imported hlocal' (by rw [himports]; exact hlast)]
    | none =>
      have hnone := List.getLast?_eq_none_iff.mp hlast
      rw [SymbolTable.resolveSimple_packages hlocal hnone,
        SymbolTable.resolveSimple_packages hlocal' (by rw [himports]; exact hnone),
        run.inPackages_eq]

/-- A name that is used elsewhere too gets another meaning by an import under it: what is imported
now was not visible before. -/
theorem resolveSimple_ne {full : String} (hfull : full ∈ plan.additions.toList)
    (hlocal : lookupFirst (Name.simple full) (SymbolTable.ofModule m index).locals = none)
    (huntouched : Name.simple full ∈ (changed.usedNamesExcept s.retargeted).toList) :
    (SymbolTable.ofModule out index).resolveSimple (Name.simple full)
      ≠ (SymbolTable.ofModule m index).resolveSimple (Name.simple full) := by
  obtain ⟨hbefore, _⟩ := run.planned_untouched hfull huntouched
  have hmem : full ∈ importedAs (Name.simple full) out.imports :=
    run.edited.mem_importedAs.mpr (.inr ⟨hfull, rfl⟩)
  obtain ⟨last, hlast⟩ :=
    Option.isSome_iff_exists.mp (List.getLast?_isSome.mpr (List.ne_nil_of_mem hmem))
  have hkept : last ∉ importedAs (Name.simple full)
      ((Demand.ofPass changed (.ofModule m index) s).kept plan) := by
    rw [Demand.importedAs_kept run.fits
      (List.contains_iff_mem.mpr (usedNamesExcept_subset huntouched))
      fun _ _ _ => List.contains_iff_mem.mpr huntouched]
    have hnone : importedAs (Name.simple full) changed.imports = [] := by
      rw [run.imports]
      exact hbefore
    intro hmem'
    rw [show (Demand.ofPass changed (.ofModule m index) s).module = changed from rfl, hnone] at hmem'
    cases hmem'
  obtain ⟨hplanned, hsimple⟩ :=
    (run.edited.mem_importedAs.mp (List.mem_of_getLast? hlast)).resolve_left hkept
  rw [← hsimple] at huntouched
  obtain ⟨_, hvisible⟩ := run.planned_untouched hplanned huntouched
  rw [SymbolTable.resolveSimple_imported (by rw [run.locals]; exact hlocal) hlast,
    SymbolTable.resolveSimple_packages hlocal hbefore]
  exact fun heq => hvisible (SymbolTable.visible_of_inPackages heq.symm)

/-- A type that is asked for and neither declared nor imported in the end is visible by its package:
in all other cases an import of it would have been added. -/
theorem visible_of_not_imported (hm : m.WellFormed) {new full : String}
    (hnew : new ∈ s.additions.toList)
    (hfull : (SymbolTable.ofModule m index).qualify new = .type full)
    (hlocal : ∀ d ∈ m.declaredTypes, d.simpleName ≠ Name.simple full)
    (hnone : importedAs (Name.simple full) out.imports = []) :
    (SymbolTable.ofModule m index).Visible full := by
  have hused : Name.simple full ∈ changed.usedNames.toList := by
    rw [simple_qualify hfull]
    exact run.named new hnew
  have hfree (x : String) (hx : x ∈ plan.additions.toList) : Name.simple x ≠ Name.simple full := by
    intro heq
    have hmem := run.edited.mem_importedAs.mpr (.inr ⟨hx, heq⟩)
    rw [hnone] at hmem
    cases hmem
  obtain ⟨full', hfull', hcase⟩ := run.settled new hnew
  rw [hfull] at hfull'
  cases hfull'
  rcases hcase with (hsat | ⟨_, hdemand⟩) | hplanned
  · simp only [Demand.isSatisfied, Bool.or_eq_true, beq_iff_eq, Bool.not_eq_true'] at hsat
    rcases hsat with (((hunused | hpackage) | himplicit) | hdeclared) | himported
    · have hnot : changed.usedNames.toList.contains (Name.simple full) = false := hunused
      rw [List.contains_iff_mem.mpr hused] at hnot
      cases hnot
    · exact .inl hpackage
    · exact .inr ⟨_, himplicit, .inl rfl⟩
    · obtain ⟨p, hp, heq⟩ := List.any_eq_true.mp hdeclared
      obtain ⟨d, hd, rfl⟩ := List.mem_map.mp (List.mem_of_find?_eq_some (mem_firstByKey_iff.mp hp))
      rw [← beq_iff_eq.mp heq] at hlocal
      exact absurd (declared_spelled hm hd).simple_eq.symm (hlocal d hd)
    · obtain ⟨i, hi, heq⟩ := List.any_eq_true.mp himported
      obtain ⟨hi, hsingle⟩ := List.mem_filter.mp hi
      rw [← beq_iff_eq.mp heq] at hnone hused hfree
      have hmem : i.name ∈ importedAs (Name.simple i.name) m.imports := by
        rw [← run.imports]
        exact List.mem_map_of_mem (List.mem_filter.mpr ⟨hi, by simp [hsingle]⟩)
      rw [← run.importedAs_eq hused hfree, hnone] at hmem
      cases hmem
  · obtain ⟨i, hi, htest⟩ := List.any_eq_true.mp hdemand
    simp only [Bool.and_eq_true, Bool.not_eq_true', beq_iff_eq] at htest
    obtain ⟨⟨hwild, hstatic⟩, hq⟩ := htest
    refine .inr ⟨i.name, hq, .inr ?_⟩
    have hmem : i.name ∈ onDemandOf changed.imports :=
      List.mem_map_of_mem (List.mem_filter.mpr ⟨hi, by rw [hstatic, hwild]; rfl⟩)
    rw [run.imports] at hmem
    exact hmem
  · exact absurd rfl (hfree full hplanned)

end LeafRun

/-! ### Names that the pass left alone -/

/-- **When a name that the pass left alone keeps its meaning.** It does exactly when the module
declares it, or no import of that simple name was added. -/
theorem resolve_untouched_iff {r : Recipe}
    {pass : SymbolTable → Module → Pass PassState (Option Module)} (hr : r.pass? = some pass)
    {index : TypeIndex} {m : Module} {changed : Option Module} {s : PassState}
    (hrun : pass (.ofModule m index) m (.start m) = some (changed, s)) {a : Applied}
    (happly : r.apply index m = some (.ok a)) {name : String}
    (hname : name ∈ (a.module.usedNamesExcept s.retargeted).toList) :
    (SymbolTable.ofModule a.module index).resolve name
        = (SymbolTable.ofModule m index).resolve name ↔
      (∃ d ∈ m.declaredTypes, d.simpleName = name)
        ∨ ∀ full ∈ a.report.importsAdded, Name.simple full ≠ name := by
  have hdotless : Name.Dotless name := by
    obtain ⟨_, mention, _, rfl⟩ := mem_usedNamesExcept.mp hname
    exact Name.dotless_head mention
  rw [SymbolTable.resolve_of_dotless hdotless, SymbolTable.resolve_of_dotless hdotless]
  cases changed with
  | none =>
    rw [Recipe.apply_of_pass? hr, applyPass, hrun] at happly
    cases happly
    exact iff_of_true rfl (.inr (List.forall_mem_nil _))
  | some changed =>
    obtain ⟨plan, hadded, run⟩ := Recipe.run_spec hr hrun happly
    rw [hadded]
    have huntouched := (run.used s.retargeted name).mp hname
    cases hlocal : lookupFirst name (SymbolTable.ofModule m index).locals with
    | some full =>
      have hdeclared : ∃ d ∈ m.declaredTypes, d.simpleName = name := by
        by_contra hnone
        rw [lookupFirst_locals_eq_none.mpr fun d hd heq => hnone ⟨d, hd, heq⟩] at hlocal
        cases hlocal
      refine iff_of_true ?_ (.inl hdeclared)
      rw [SymbolTable.resolveSimple_declared hlocal,
        SymbolTable.resolveSimple_declared (by rw [run.locals]; exact hlocal)]
    | none =>
      have hundeclared : ¬ ∃ d ∈ m.declaredTypes, d.simpleName = name := by
        rintro ⟨d, hd, heq⟩
        exact lookupFirst_locals_eq_none.mp hlocal d hd heq
      rw [or_iff_right hundeclared]
      constructor
      · rintro hsame full hfull rfl
        exact run.resolveSimple_ne hfull hlocal huntouched hsame
      · intro hfree
        exact run.resolveSimple_eq (usedNamesExcept_subset huntouched) hfree

/-- The import that is added for one class is under a name that another class uses for a type of the
package, and that name means the imported type now. -/
theorem resolve_untouched_captured : ∃ c m a,
    SupertypeChange.ofNames "Vehicle" "q.Car" = .ok c ∧
    Module.parse "package p; class A extends Vehicle {} class B extends Car {}" = .ok m ∧
    (Recipe.changeSupertype c).apply (.ofList ["p.Car", "q.Car"]) m = some (.ok a) ∧
    (SymbolTable.ofModule a.module (.ofList ["p.Car", "q.Car"])).resolve "Car"
      ≠ (SymbolTable.ofModule m (.ofList ["p.Car", "q.Car"])).resolve "Car" := by
  have hcheck : (do
      let c ← (SupertypeChange.ofNames "Vehicle" "q.Car").toOption
      let m ← (Module.parse
        "package p; class A extends Vehicle {} class B extends Car {}").toOption
      let run ← c.pass (.ofModule m (.ofList ["p.Car", "q.Car"])) m (.start m)
      let a ← ((Recipe.changeSupertype c).apply (.ofList ["p.Car", "q.Car"]) m).bind Except.toOption
      return (a.module.usedNamesExcept run.2.retargeted).toList.contains "Car"
        && decide (a.report.importsAdded = ["q.Car"])
        && decide (m.declaredTypes.map (·.simpleName) = ["A", "B"]) : Option Bool) = some true := by
    decide +kernel
  obtain ⟨c, hc, hcheck⟩ := Option.bind_eq_some_iff.mp hcheck
  obtain ⟨m, hm, hcheck⟩ := Option.bind_eq_some_iff.mp hcheck
  obtain ⟨⟨changed, s⟩, hrun, hcheck⟩ := Option.bind_eq_some_iff.mp hcheck
  obtain ⟨a, ha, hcheck⟩ := Option.bind_eq_some_iff.mp hcheck
  obtain ⟨outcome, happly, hok⟩ := Option.bind_eq_some_iff.mp ha
  rw [eq_ok_of_toOption hok] at happly
  simp only [pure, Option.some.injEq, Bool.and_eq_true, decide_eq_true_eq] at hcheck
  obtain ⟨⟨hname, hadded⟩, hdeclared⟩ := hcheck
  refine ⟨c, m, a, eq_ok_of_toOption hc, eq_ok_of_toOption hm, happly, fun hsame => ?_⟩
  have hiff := resolve_untouched_iff (r := .changeSupertype c) rfl hrun happly
    (List.contains_iff_mem.mp hname)
  rcases hiff.mp hsame with ⟨d, hd, hsimple⟩ | hfree
  · have hmem := List.mem_map_of_mem (f := (·.simpleName)) hd
    rw [hdeclared, hsimple] at hmem
    exact absurd hmem (by decide)
  · rw [hadded] at hfree
    exact hfree "q.Car" List.mem_cons_self (by decide)

/-! ### Names that the pass wrote -/

/-- In `out`, the simple name of `full` means another type: one that is declared, or else one that is
imported, or else, when `full` is in another package, one that is visible by its own package. -/
inductive Shadowed (index : TypeIndex) (m out : Module) (full : String) : Prop
  | declared {d : DeclaredType}
      (first : m.declaredTypes.find? (·.simpleName == Name.simple full) = some d)
      (differs : d.qualifiedName ≠ full)
  | imported {other : String} (undeclared : ∀ d ∈ m.declaredTypes, d.simpleName ≠ Name.simple full)
      (last : (importedAs (Name.simple full) out.imports).getLast? = some other)
      (differs : other ≠ full)
  | visible {other : String} (undeclared : ∀ d ∈ m.declaredTypes, d.simpleName ≠ Name.simple full)
      (unimported : importedAs (Name.simple full) out.imports = [])
      (foreign : Name.qualifier? full ≠ m.packageName?)
      (known : other ∈ index.candidates (Name.simple full))
      (seen : (SymbolTable.ofModule m index).Visible other) (differs : other ≠ full)

section Shadowed

variable {index : TypeIndex} {m out : Module} {full : String}

theorem shadowed_of_find? {d : DeclaredType}
    (hd : m.declaredTypes.find? (·.simpleName == Name.simple full) = some d) :
    Shadowed index m out full ↔ d.qualifiedName ≠ full := by
  have hmem : d ∈ m.declaredTypes := List.mem_of_find?_eq_some hd
  have hsimple : d.simpleName = Name.simple full := by simpa using List.find?_some hd
  constructor
  · intro hshadow
    cases hshadow with
    | declared first differs =>
      rw [hd] at first
      cases first
      exact differs
    | imported undeclared => exact absurd hsimple (undeclared d hmem)
    | visible undeclared => exact absurd hsimple (undeclared d hmem)
  · exact .declared hd

theorem shadowed_of_getLast? {other : String}
    (hundeclared : ∀ d ∈ m.declaredTypes, d.simpleName ≠ Name.simple full)
    (hlast : (importedAs (Name.simple full) out.imports).getLast? = some other) :
    Shadowed index m out full ↔ other ≠ full := by
  constructor
  · intro hshadow
    cases hshadow with
    | declared first =>
      refine absurd ?_ (hundeclared _ (List.mem_of_find?_eq_some first))
      simpa using List.find?_some first
    | imported _ last differs =>
      rw [hlast] at last
      cases last
      exact differs
    | visible _ unimported =>
      rw [unimported] at hlast
      cases hlast
  · exact .imported hundeclared hlast

theorem shadowed_of_unimported
    (hundeclared : ∀ d ∈ m.declaredTypes, d.simpleName ≠ Name.simple full)
    (hnone : importedAs (Name.simple full) out.imports = []) :
    Shadowed index m out full ↔ Name.qualifier? full ≠ m.packageName? ∧
      ∃ other ∈ index.candidates (Name.simple full),
        (SymbolTable.ofModule m index).Visible other ∧ other ≠ full := by
  constructor
  · intro hshadow
    cases hshadow with
    | declared first =>
      refine absurd ?_ (hundeclared _ (List.mem_of_find?_eq_some first))
      simpa using List.find?_some first
    | imported _ last =>
      rw [hnone] at last
      cases last
    | visible _ _ foreign known seen differs => exact ⟨foreign, _, known, seen, differs⟩
  · rintro ⟨foreign, other, known, seen, differs⟩
    exact .visible hundeclared hnone foreign known seen differs

end Shadowed

/-- **When a name that the pass wrote means the configured type.** It does exactly when no other type
shadows it. -/
theorem resolve_retargeted_iff {source : String} {m : Module} (hparse : Module.parse source = .ok m)
    {r : Recipe} {pass : SymbolTable → Module → Pass PassState (Option Module)}
    (hr : r.pass? = some pass) {index : TypeIndex} {changed : Module} {s : PassState}
    (hrun : pass (.ofModule m index) m (.start m) = some (some changed, s)) {a : Applied}
    (happly : r.apply index m = some (.ok a)) {new full : String}
    (hnew : new ∈ s.additions.toList)
    (hfull : (SymbolTable.ofModule m index).qualify new = .type full)
    (hknown : index.contains full = true) :
    (SymbolTable.ofModule a.module index).resolve (Name.simple new) = .type full ↔
      ¬ Shadowed index m a.module full := by
  obtain ⟨_, _, hm⟩ := parse_sound hparse
  obtain ⟨plan, _, run⟩ := Recipe.run_spec hr hrun happly
  rw [SymbolTable.resolve_of_dotless (Name.dotless_simple new), ← simple_qualify hfull]
  cases hlocal : lookupFirst (Name.simple full) (SymbolTable.ofModule m index).locals with
  | some other =>
    rw [SymbolTable.resolveSimple_declared (by rw [run.locals]; exact hlocal)]
    rw [lookupFirst_locals] at hlocal
    obtain ⟨d, hd, rfl⟩ := Option.map_eq_some_iff.mp hlocal
    rw [shadowed_of_find? hd, not_ne_iff, Resolved.type.injEq]
  | none =>
    have hlocal' : lookupFirst (Name.simple full) (SymbolTable.ofModule a.module index).locals
        = none := by
      rw [run.locals]
      exact hlocal
    have hundeclared := lookupFirst_locals_eq_none.mp hlocal
    cases hlast : (importedAs (Name.simple full) a.module.imports).getLast? with
    | some other =>
      rw [SymbolTable.resolveSimple_imported hlocal' hlast, shadowed_of_getLast? hundeclared hlast,
        not_ne_iff, Resolved.type.injEq]
    | none =>
      -- Nothing is declared or imported under the name, so the type is visible by its package.
      have hnone := List.getLast?_eq_none_iff.mp hlast
      have hcandidate : full ∈ index.candidates (Name.simple full) :=
        TypeIndex.mem_candidates.mpr ⟨TypeIndex.contains_eq_true.mp hknown, rfl⟩
      have hvisible := run.visible_of_not_imported hm hnew hfull hundeclared hnone
      rw [SymbolTable.resolveSimple_packages hlocal' hnone, run.inPackages_eq,
        shadowed_of_unimported hundeclared hnone]
      by_cases hq : Name.qualifier? full = m.packageName?
      · exact iff_of_true (SymbolTable.inPackages_own hcandidate hq) fun h => h.1 hq
      · rw [SymbolTable.inPackages_onDemand hcandidate hvisible hq]
        constructor
        · rintro hall ⟨_, other, known, seen, differs⟩
          exact differs (hall other known seen)
        · intro hclear other hother hseen
          by_contra hne
          exact hclear ⟨hq, other, hother, hseen, hne⟩

/-- The new superclass is in the package of the module, so it is not imported; but its simple name is
imported from elsewhere, and means that type. -/
theorem resolve_retargeted_imported : ∃ c m a,
    SupertypeChange.ofNames "Vehicle" "p.Car" = .ok c ∧
    Module.parse "package p; import q.Car; class A extends Vehicle {} class B { Car c; }" = .ok m ∧
    (Recipe.changeSupertype c).apply (.ofList ["p.Car"]) m = some (.ok a) ∧
    Shadowed (.ofList ["p.Car"]) m a.module "p.Car" := by
  have hcheck : (do
      let c ← (SupertypeChange.ofNames "Vehicle" "p.Car").toOption
      let m ← (Module.parse
        "package p; import q.Car; class A extends Vehicle {} class B { Car c; }").toOption
      let run ← c.pass (.ofModule m (.ofList ["p.Car"])) m (.start m)
      let a ← ((Recipe.changeSupertype c).apply (.ofList ["p.Car"]) m).bind Except.toOption
      return run.1.isSome && run.2.additions.toList.contains "p.Car"
        && decide ((SymbolTable.ofModule m (.ofList ["p.Car"])).qualify "p.Car" = .type "p.Car")
        && decide ((SymbolTable.ofModule a.module (.ofList ["p.Car"])).resolve "Car"
          = .type "q.Car") : Option Bool) = some true := by
    decide +kernel
  obtain ⟨c, hc, hcheck⟩ := Option.bind_eq_some_iff.mp hcheck
  obtain ⟨m, hm, hcheck⟩ := Option.bind_eq_some_iff.mp hcheck
  obtain ⟨⟨changed, s⟩, hrun, hcheck⟩ := Option.bind_eq_some_iff.mp hcheck
  obtain ⟨a, ha, hcheck⟩ := Option.bind_eq_some_iff.mp hcheck
  obtain ⟨outcome, happly, hok⟩ := Option.bind_eq_some_iff.mp ha
  rw [eq_ok_of_toOption hok] at happly
  simp only [pure, Option.some.injEq, Bool.and_eq_true, decide_eq_true_eq] at hcheck
  obtain ⟨⟨⟨hchanged, hnew⟩, hfull⟩, hresolve⟩ := hcheck
  obtain ⟨changed, rfl⟩ := Option.isSome_iff_exists.mp hchanged
  refine ⟨c, m, a, eq_ok_of_toOption hc, eq_ok_of_toOption hm, happly, ?_⟩
  have hiff := resolve_retargeted_iff (eq_ok_of_toOption hm) rfl hrun happly
    (List.contains_iff_mem.mp hnew) hfull (by decide)
  by_contra hclear
  have hother := hiff.mpr hclear
  rw [show Name.simple "p.Car" = "Car" from by decide, hresolve] at hother
  exact absurd (Resolved.type.inj hother) (by decide)

end Migration
