import Migration.Proofs.Recipe.Numbered
import Migration.Proofs.Rule.Retargeting
import Migration.Proofs.Scope.Lookup

/-!
# Imports that are removed

A recipe removes an import where its pass has given it up, and where nothing but names that the pass has
written needs its simple name (`LeafRun.isRemoved_of_missing`). If such a name needs it, a new import has
taken its place. Main result: no import that is still needed is removed (`Recipe.apply_removes_unneeded`).
-/

namespace Migration

open Imports (Demand)
open Outline (mentions spellings Uses)

/-- The simple name of an import that a configured type names is an identifier. -/
theorem isIdentifier_of_isGivenUpBy {i : Import} {p : TypePattern}
    (h : Imports.isGivenUpBy i p.spelled = true) : Name.isIdentifier (Name.simple i.name) = true := by
  have hvalid := Name.isIdentifier_simple p.valid
  rw [Imports.isGivenUpBy, Bool.and_eq_true] at h
  cases hq : Name.isQualified p.spelled with
  | true =>
    rw [hq, if_pos rfl, beq_iff_eq] at h
    rw [h.2]
    exact hvalid
  | false =>
    rw [hq, if_neg Bool.false_ne_true, beq_iff_eq] at h
    rw [h.2]
    rwa [Name.simple_of_dotless (Name.isQualified_eq_false.mp hq)] at hvalid

theorem spellings_withFirstLead (lead : Option Trivia) (ds : List TypeDecl) :
    spellings ((Imports.withFirstLead lead ds).map TypeDecl.outline) =
      spellings (ds.map TypeDecl.outline) :=
  Imports.collect_withFirstLead (fun _ => rfl) lead ds

namespace LeafRun

variable {index : TypeIndex} {m changed out : Module} {s : PassState} {plan : Imports.Plan}
  (run : LeafRun index m s changed out plan)

include run

/-- **An import that is missing** was given up, and a new one has taken its place or its simple name is not
used. -/
theorem isRemoved_of_missing {i : Import} (hi : i ∈ m.imports)
    (hmissing : i.bare ∉ out.imports.map Import.bare) : s.GivesUp i ∧
      ((∃ full ∈ plan.additions.toList, Name.simple full = Name.simple i.name ∧
          Name.simple i.name ∉ (out.usedNamesExcept s.retargeted).toList) ∨
        Name.simple i.name ∉ out.usedNames.toList) := by
  rw [← run.imports] at hi
  obtain ⟨k, hk⟩ := List.mem_iff_getElem?.mp hi
  have hkept : i ∉ (Demand.ofPass changed (.ofModule m index) s).kept plan := by
    intro hkept
    obtain ⟨_, _, _, hsub, _⟩ := run.edited
    exact hmissing (hsub.subset (List.mem_map_of_mem hkept))
  have hremoved : (Demand.ofPass changed (.ofModule m index) s).isRemoved plan i k = true :=
    eq_true_of_ne_false fun hnot => hkept (Demand.mem_kept_iff.mpr ⟨k, hk, hnot⟩)
  rw [Demand.isRemoved, Bool.and_eq_true, Bool.or_eq_true, Bool.not_eq_true'] at hremoved
  refine ⟨List.any_eq_true.mp hremoved.1, hremoved.2.imp (fun hreplaced => ?_) fun hunused hused => ?_⟩
  · obtain ⟨full, existing, hfull, hclash, huntouched⟩ :=
      run.fits.replaced k (List.contains_iff_mem.mp hreplaced)
    obtain ⟨hexisting, hsimple⟩ := Demand.clash?_eq_some hclash
    cases hk.symm.trans hexisting
    refine ⟨full, hfull, hsimple.symm, fun hused => ?_⟩
    rw [run.used, hsimple] at hused
    exact Bool.false_ne_true (huntouched.symm.trans (List.contains_iff_mem.mpr hused))
  · exact Bool.false_ne_true
      (hunused.symm.trans (List.contains_iff_mem.mpr ((run.used [] _).mp hused)))

end LeafRun

namespace Recipe

/-- **No import that is still needed is removed.** What is missing is an import of a single type that the
pass has given up, and no name but those that the pass wrote starts with its simple name. If one of these
does, an import of that simple name was added. The numbers of the names that the pass wrote stand for no
others, as long as the numbers do not wrap around. -/
theorem apply_removes_unneeded {r : Recipe}
    {pass : SymbolTable → Module → Pass PassState (Option Module)} (hr : r.pass? = some pass)
    {index : TypeIndex} {m : Module} {changed : Option Module} {s : PassState}
    (hrun : pass (.ofModule m index) m (.start m) = some (changed, s)) {a : Applied}
    (happly : r.apply index m = some (.ok a)) :
    (∀ i ∈ m.imports, i.bare ∉ a.module.imports.map Import.bare →
      i.isSingleType = true ∧
      (∃ name ∈ s.removals.toList,
        if Name.isQualified name then i.name = name else Name.simple i.name = name) ∧
      (∀ name ∈ mentions s.retargeted (a.module.types.map TypeDecl.outline),
        Name.head name ≠ Name.simple i.name) ∧
      (Uses (Name.simple i.name) (a.module.types.map TypeDecl.outline) →
        ∃ j ∈ a.module.imports, j.isSingleType = true ∧ j.name ∈ a.report.importsAdded ∧
          Name.simple j.name = Name.simple i.name)) ∧
    (m.Numbered → m.nextId.toNat + leafNumbers index r m a < UInt32.size →
      ∀ q ∈ spellings (a.module.types.map TypeDecl.outline), q.1 ∈ s.retargeted →
        ∃ p, r.Writes p ∧ p.simpleName = q.2) := by
  obtain ⟨hremovals, hretargeted⟩ := pass_renames hr hrun
  refine ⟨fun i hi hmissing => ?_, fun hm hroom q hq hmem => ?_⟩
  · cases changed with
    | none =>
      rw [apply_of_pass? hr, applyPass, hrun] at happly
      cases happly
      exact absurd (List.mem_map_of_mem hi) hmissing
    | some changed =>
      obtain ⟨plan, hadded, run⟩ := run_spec hr hrun happly
      obtain ⟨⟨name, hname, hgiven⟩, hcase⟩ := run.isRemoved_of_missing hi hmissing
      have hused : Name.simple i.name ≠ "" ∧ Name.simple i.name ≠ "?" := by
        obtain ⟨p, _, rfl⟩ := (hremovals name hname).resolve_left List.not_mem_nil
        exact Name.ne_of_isIdentifier (isIdentifier_of_isGivenUpBy hgiven)
      have huntouched : Name.simple i.name ∉ (a.module.usedNamesExcept s.retargeted).toList := by
        rcases hcase with ⟨_, _, _, hfree⟩ | hfree
        · exact hfree
        · exact fun hmem => hfree (usedNamesExcept_subset hmem)
      rw [Imports.isGivenUpBy, Bool.and_eq_true] at hgiven
      refine ⟨hgiven.1, ⟨name, hname, ?_⟩, fun mention hmention hhead => ?_, fun huses => ?_⟩
      · simpa [apply_ite (· = true)] using hgiven.2
      · exact huntouched (mem_usedNamesExcept.mpr ⟨hused, mention, hmention, hhead⟩)
      · obtain ⟨full, hfull, hsimple, _⟩ :=
          hcase.resolve_right fun hfree => hfree (mem_usedNamesExcept.mpr ⟨hused, huses⟩)
        have hmem := run.edited.mem_importedAs.mpr (.inr ⟨hfull, rfl⟩)
        obtain ⟨j, hj, _, rfl⟩ := Imports.mem_importedAs.mp hmem
        obtain ⟨hj, hsingle⟩ := List.mem_filter.mp hj
        exact ⟨j, hj, hsingle, hadded ▸ hfull, hsimple⟩
  · obtain ⟨p, hp, hwritten⟩ := (hretargeted q.1 hmem).resolve_left List.not_mem_nil
    have hspellings : spellings ((changed.getD m).types.map TypeDecl.outline) =
        spellings (a.module.types.map TypeDecl.outline) := by
      cases changed with
      | none =>
        rw [apply_of_pass? hr, applyPass, hrun] at happly
        cases happly
        rfl
      | some changed =>
        obtain ⟨plan, _, run⟩ := run_spec hr hrun happly
        obtain ⟨lead, htypes⟩ := run.types
        rw [htypes, spellings_withFirstLead, Option.getD_some]
    rw [hspellings] at hwritten
    exact ⟨p, hp, (numbered_leaf hr happly hm hroom).1.spelling_eq hwritten hq⟩

/-- Another type of the same simple name is imported in the place of one that is missing, because the
superclass that the pass wrote needs it. -/
theorem apply_removes_unneeded_replaced : ∃ c m a,
    SupertypeChange.ofNames "a.Car" "b.Car" = .ok c ∧
    Module.parse "import a.Car; class A extends Car {}" = .ok m ∧
    (changeSupertype c).apply (.ofList []) m = some (.ok a) ∧
    (∃ i ∈ m.imports, i.bare ∉ a.module.imports.map Import.bare ∧ i.name = "a.Car" ∧
      ∃ j ∈ a.module.imports, j.isSingleType = true ∧ j.name ∈ a.report.importsAdded ∧
        Name.simple j.name = Name.simple i.name) ∧
    ∃ p, (changeSupertype c).Writes p ∧ p.simpleName = "Car" := by
  have hcheck : (do
      let c ← (SupertypeChange.ofNames "a.Car" "b.Car").toOption
      let m ← (Module.parse "import a.Car; class A extends Car {}").toOption
      let run ← c.pass (.ofModule m (.ofList [])) m (.start m)
      let a ← ((changeSupertype c).apply (.ofList []) m).bind Except.toOption
      let i ← m.imports.head?
      let q ← (spellings (a.module.types.map TypeDecl.outline)).head?
      return decide (i.bare ∉ a.module.imports.map Import.bare) && decide (i.name = "a.Car")
        && decide (∃ name ∈ mentions [] (a.module.types.map TypeDecl.outline),
          Name.head name = Name.simple i.name)
        && (decide m.Numbered && decide (m.nextId.toNat < 1000)
          && decide (leafNumbers (.ofList []) (.changeSupertype c) m a < 1000))
        && (decide (q.1 ∈ run.2.retargeted) && decide (q.2 = "Car")) : Option Bool) = some true := by
    decide +kernel
  obtain ⟨c, hc, hcheck⟩ := Option.bind_eq_some_iff.mp hcheck
  obtain ⟨m, hm, hcheck⟩ := Option.bind_eq_some_iff.mp hcheck
  obtain ⟨⟨changed, s⟩, hrun, hcheck⟩ := Option.bind_eq_some_iff.mp hcheck
  obtain ⟨a, ha, hcheck⟩ := Option.bind_eq_some_iff.mp hcheck
  obtain ⟨outcome, happly, hok⟩ := Option.bind_eq_some_iff.mp ha
  rw [eq_ok_of_toOption hok] at happly
  obtain ⟨i, hi, hcheck⟩ := Option.bind_eq_some_iff.mp hcheck
  obtain ⟨q, hq, hcheck⟩ := Option.bind_eq_some_iff.mp hcheck
  simp only [pure, Option.some.injEq, Bool.and_eq_true, decide_eq_true_eq] at hcheck
  obtain ⟨⟨⟨⟨hmissing, hname⟩, huses⟩, ⟨hnumbered, hsmall⟩, hfew⟩, hmem, hcar⟩ := hcheck
  have hroom : m.nextId.toNat + leafNumbers (.ofList []) (.changeSupertype c) m a < UInt32.size := by
    rw [UInt32.size]
    omega
  obtain ⟨hremoved, hwritten⟩ := apply_removes_unneeded (r := .changeSupertype c) rfl hrun happly
  have hi := List.mem_of_mem_head? hi
  obtain ⟨_, _, _, hreplaced⟩ := hremoved i hi hmissing
  refine ⟨c, m, a, eq_ok_of_toOption hc, eq_ok_of_toOption hm, happly,
    ⟨i, hi, hmissing, hname, hreplaced huses⟩, ?_⟩
  rw [← hcar]
  exact hwritten hnumbered hroom q (List.mem_of_mem_head? hq) hmem

end Recipe

end Migration
