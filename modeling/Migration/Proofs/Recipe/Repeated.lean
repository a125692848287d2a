import Migration.Proofs.Recipe.Readable
import Migration.Proofs.Recipe.Unchanged
import Migration.Proofs.Rule.Settled

/-!
# Moving constants twice

Applying a table of constants once more changes nothing when the table leaves every access of the
changed module alone (`pass_of_spared`). What it left behind is settled in the scope that it found; the
changed module has other imports, and with them its names may mean other types. Where the entries of
the table stay apart and the names that it wrote mean the types that they were written for, the settled
accesses are left alone in the new scope too, and the second run gives the module back as it is
(`Recipe.apply_again`).

Both conditions are needed. A table is accepted although one of its entries writes what it matches
itself, and then it changes a module every time anew (`Recipe.apply_again_self`).
-/

namespace Migration

open Outline (Accesses mentions)
open Imports (importedAs Demand)

namespace ConstantTable

variable {t : ConstantTable} {symbols : SymbolTable}

/-! ### Passes over accesses that are left alone -/

theorem eq_none_of_spares {a : FieldAccess} (h : t.Spares symbols a) {s s' : PassState}
    {r : Option Expr} (hask : t.replace symbols a s = (r, s')) : r = none := by
  rcases replace_cases hask with
    ⟨hr, _⟩ | ⟨c, spelled, _, _, hc, hspelled, htype, _, _, hcase⟩
  · exact hr
  · rcases h c hc with hno | ⟨hchanges, hname, hunknown⟩
    · rw [hspelled] at hno
      exact absurd htype (Bool.eq_false_iff.mp hno)
    · rcases hcase with ⟨hkeeps, _⟩ | ⟨_, i, hi, _⟩ | ⟨_, _, full, hfull, _⟩
      · rw [hchanges] at hkeeps
        cases hkeeps
      · rw [hi] at hname
        cases hname
      · rw [hunknown] at hfull
        cases hfull

/-- What hooks say to an expression whose accesses are left alone. -/
theorem askExpr_of_spared {e : Expr} (h : Accesses (t.Spares symbols) [e.outline])
    {s s' : PassState} {r : Option Expr}
    (hask : Pass.askExpr (t.hooks symbols) e s = some (r, s')) : r = none ∧ s'.edits = s.edits := by
  cases e with
  | access a =>
    have hhook : t.replace symbols a s = (r, s') := Option.some.inj hask
    obtain rfl := eq_none_of_spares (Outline.accesses_access.mp h).1 hhook
    exact ⟨rfl, edits_replace hhook⟩
  | _ =>
    obtain ⟨rfl, rfl⟩ := Pass.pure_eq_some.mp hask
    exact ⟨rfl, rfl⟩

/-- The state counts no more edits than before. -/
def SameEdits (s s' : PassState) : Prop := s'.edits = s.edits

theorem carrier_edits : Pass.Carrier SameEdits fun _ _ => True where
  refl _ := rfl
  trans h h' := h'.trans h
  mono _ _ := trivial
  free _ := trivial
  append _ _ := trivial
  node _ _ := trivial

/-- A pass over expressions whose accesses are left alone replaces nothing. -/
theorem edits_of_spared {m : Module} {depth : Nat} {s s' : PassState} {r : Option Module}
    (hrun : t.passWithin symbols m depth s = some (r, s'))
    (hm : Accesses (t.Spares symbols) (m.types.map TypeDecl.outline)) : s'.edits = s.edits := by
  let E : Change PassState Expr := fun s x s' y =>
    Pass.Carried SameEdits (fun _ _ => True) (t.Spares symbols) s [x.outline] s' [y.outline]
  refine (carrier_edits.transform_carried (E := E) (fun h => h) (fun _ _ => rfl) (fun _ _ => rfl) ?_
    hrun hm).1
  intro s s₁ s₂ x y r hask hbelow hx
  obtain ⟨rfl, hs⟩ := askExpr_of_spared hx hask
  have hbelow' : SameEdits s₁ s₂ := by
    cases x with
    | access a =>
      obtain ⟨target, htarget, _⟩ := hbelow.access_inv
      exact (htarget (Outline.accesses_access.mp hx).2).1
    | _ => exact (carrier_edits.congruent.below (fun h => h) hbelow nofun hx).1
  exact ⟨hbelow'.trans hs, trivial⟩

/-- **A pass leaves a module alone when it leaves its accesses alone.** -/
theorem pass_of_spared {m : Module}
    (hm : Accesses (t.Spares symbols) (m.types.map TypeDecl.outline)) (s : PassState) :
    ∃ s', t.pass symbols m s = some (none, s') := by
  have hdeep : m.outline.height ≤ t.depthBound symbols m := by
    rw [depthBound, Module.height]
    omega
  have hends : Pass.Deepens True (t.passWithin symbols m 0) (t.pass symbols m) :=
    Pass.transform_deepens bounded_hooks hdeep
      (fun e he => Pass.expr_deepens_of_quiet bounded_hooks hdeep
        (fun e s r s' h hask => (askExpr_of_spared h hask).1) he)
      ⟨Nat.le_refl _, Outline.accesses_module.mpr hm⟩
  obtain ⟨⟨r, s'⟩, hrun⟩ := Option.isSome_iff_exists.mp ((hends s).2 trivial)
  have hedits := edits_of_spared hrun hm
  obtain ⟨_, htells⟩ := (t.counting symbols).transform_tells _ m s r s' hrun
  cases r with
  | none => exact ⟨s', hrun⟩
  | some changed =>
    have hgrows := (htells.mp rfl).resolve_left Bool.false_ne_true
    omega

end ConstantTable

/-! ### The scope of the changed module -/

namespace LeafRun

variable {index : TypeIndex} {m changed out : Module} {s : PassState} {plan : Imports.Plan}
  (run : LeafRun index m s changed out plan)

include run

/-- A name that means no type, and under which nothing is added, still means none. -/
theorem resolveSimple_unknown {simple : String}
    (hfree : ∀ full ∈ plan.additions.toList, Name.simple full ≠ simple)
    (hunknown : ∀ name, (SymbolTable.ofModule m index).resolveSimple simple ≠ .type name) :
    (SymbolTable.ofModule out index).resolveSimple simple
      = (SymbolTable.ofModule m index).resolveSimple simple := by
  have hlocal : lookupFirst simple (SymbolTable.ofModule m index).locals = none :=
    Option.eq_none_iff_forall_ne_some.mpr fun name h =>
      hunknown name (SymbolTable.resolveSimple_declared h)
  have hbefore : importedAs simple m.imports = [] :=
    List.getLast?_eq_none_iff.mp <| Option.eq_none_iff_forall_ne_some.mpr fun name h =>
      hunknown name (SymbolTable.resolveSimple_imported hlocal h)
  have hafter : importedAs simple out.imports = [] := by
    rw [run.edited.importedAs_eq hfree, ← List.sublist_nil, ← hbefore, ← run.imports]
    exact ((Demand.kept_sublist plan).filter _).map _
  rw [SymbolTable.resolveSimple_packages hlocal hbefore,
    SymbolTable.resolveSimple_packages (by rw [run.locals]; exact hlocal) hafter, run.inPackages_eq]

theorem qualify_unknown {name : String}
    (hfree : ∀ full ∈ plan.additions.toList, Name.simple full ≠ Name.simple name)
    (hunknown : ((SymbolTable.ofModule m index).qualify name).type? = none) :
    ((SymbolTable.ofModule out index).qualify name).type? = none := by
  by_cases hq : Name.isQualified name = true
  · rw [SymbolTable.qualify, if_pos hq] at hunknown
    cases hunknown
  · have hdotless := Name.isQualified_eq_false.mp (Bool.eq_false_iff.mpr hq)
    rw [Name.simple_of_dotless hdotless] at hfree
    have hsame := run.resolveSimple_unknown hfree fun full hfull => by
      rw [SymbolTable.qualify, if_neg hq, hfull] at hunknown
      cases hunknown
    rw [SymbolTable.qualify, if_neg hq] at hunknown ⊢
    rw [hsame]
    exact hunknown

end LeafRun

namespace ConstantTable

/-- Every simple name that the pass wrote, and that an entry may match, means the type that the pass
asked an import for. -/
def Bound (t : ConstantTable) (s : PassState) (before after : SymbolTable) : Prop :=
  ∀ new ∈ s.additions.toList, (∃ d ∈ t.entries, d.oldOwner.simpleName = Name.simple new) →
    after.resolve (Name.simple new) = before.qualify new

instance (t : ConstantTable) (s : PassState) (before after : SymbolTable) :
    Decidable (t.Bound s before after) :=
  inferInstanceAs (Decidable (∀ new ∈ s.additions.toList,
    (∃ d ∈ t.entries, d.oldOwner.simpleName = Name.simple new) →
      after.resolve (Name.simple new) = before.qualify new))

variable {t : ConstantTable} {index : TypeIndex} {m changed out : Module} {s : PassState}
  {plan : Imports.Plan} (run : LeafRun index m s changed out plan)
  (hapart : t.Apart) (hmoves : t.Moves (.start m) s)
  (hbound : t.Bound s (.ofModule m index) (.ofModule out index))

include run hapart

include hbound in
/-- No entry matches behind a simple name that the pass wrote. -/
theorem not_matchesQualifier_written {c d : ConstantChange} (hc : c ∈ t.entries)
    (hd : d ∈ t.entries) (hchanges : c.ownerChanges = true)
    (hasked : c.newOwner.spelled ∈ s.additions.toList) :
    ¬ d.oldOwner.matchesQualifier (.ofModule out index) c.newOwner.simpleName = true := by
  intro hmatch
  obtain ⟨full, hfull, _⟩ := run.settled _ hasked
  have hsimple := TypePattern.simple_of_matchesQualifier hmatch
  rw [Name.simple_of_dotless c.newOwner.dotless_simpleName] at hsimple
  have hafter := hbound _ hasked ⟨d, hd, hsimple.symm⟩
  rw [hfull] at hafter
  have hoverlaps := TypePattern.overlaps_of_simple hfull hafter hmatch
  rw [(hapart c hc d hd).owner hchanges] at hoverlaps
  cases hoverlaps

include hmoves

omit hapart in
/-- An import is added for the new owner of an entry. -/
theorem exists_entry_of_planned {full : String} (hfull : full ∈ plan.additions.toList) :
    ∃ c ∈ t.entries, c.ownerChanges = true ∧ c.newOwner.spelled ∈ s.additions.toList ∧
      (SymbolTable.ofModule m index).qualify c.newOwner.spelled = .type full ∧
      Name.simple full = c.newOwner.simpleName := by
  obtain ⟨new, hnew, hqualify⟩ := run.planned full hfull
  rcases hmoves.asked new hnew with hnone | ⟨c, hc, hchanges, rfl⟩
  · cases hnone
  · exact ⟨c, hc, hchanges, hnew, hqualify, simple_qualify hqualify⟩

/-- A new owner without a known full name does not get one. -/
theorem qualifiedIn?_after {c : ConstantChange} (hc : c ∈ t.entries)
    (hchanges : c.ownerChanges = true)
    (h : c.newOwner.qualifiedIn? (.ofModule m index) = none) :
    c.newOwner.qualifiedIn? (.ofModule out index) = none := by
  rw [TypePattern.qualifiedIn?_eq] at h ⊢
  refine run.qualify_unknown (fun full hfull hsimple => ?_) h
  obtain ⟨e, he, hechanges, _, hqualify, hesimple⟩ := exists_entry_of_planned run hmoves hfull
  -- The added type is one that the new owner may stand for, so it is spelled like the new owner.
  have hoverlaps : e.newOwner.overlaps c.newOwner = true := by
    refine TypePattern.overlaps_iff.mpr ⟨hesimple.symm.trans hsimple, fun a b _ hb => ?_⟩
    obtain ⟨hqualified, _⟩ := TypePattern.fullName?_eq_some.mp hb
    rw [SymbolTable.qualify, if_pos hqualified] at h
    cases h
  rw [← (hapart e he c hc).spelling hechanges hchanges hoverlaps, hqualify] at h
  cases h

omit run hapart hmoves in
theorem find?_scope {before after : SymbolTable} {a : FieldAccess} (howner : a.owner = none)
    {spelled : String} (hspelled : a.target.dottedName? = some spelled)
    (h : ∀ p : TypePattern, p.matchesQualifier after spelled = p.matchesQualifier before spelled) :
    t.find? after a = t.find? before a := by
  simp only [find?, ConstantChange.isMatch, TypePattern.matchesReference, howner, hspelled, h]

include hbound

/-- **What was left alone is left alone in the changed module.** -/
theorem spares_after {a : FieldAccess} (howner : a.owner = none)
    (hspares : t.Spares (.ofModule m index) a)
    (hclosed : ∀ i, a.target = .name i →
      i.name ∈ mentions [] (changed.types.map TypeDecl.outline)) :
    t.Spares (.ofModule out index) a := by
  intro d hd
  have hdmem := mem_of_find? hd
  obtain ⟨_, spelled, hspelled, hmatch⟩ :=
    (ConstantChange.isMatch_iff howner).mp (isMatch_of_find? hd)
  by_cases hsame : Name.isQualified spelled = false →
      (SymbolTable.ofModule out index).resolve spelled
        = (SymbolTable.ofModule m index).resolve spelled
  · rw [find?_scope howner hspelled fun p => p.matchesQualifier_congr hsame] at hd
    rcases hspares d hd with hno | ⟨hchanges, hname, hunknown⟩
    · exact .inl hno
    · exact .inr ⟨hchanges, hname, qualifiedIn?_after run hapart hmoves hdmem hchanges hunknown⟩
  · -- Only an import that was added gives a used name another meaning, and it is for a new owner.
    exfalso
    obtain ⟨hdotless, hdiffers⟩ := Classical.not_imp.mp hsame
    rw [Name.isQualified_eq_false] at hdotless
    obtain ⟨i, hi, rfl⟩ := name_of_dottedName? hspelled hdotless
    have hvalid : Name.isIdentifier i.name = true := by
      have hsimple := TypePattern.simple_of_matchesQualifier hmatch
      rw [Name.simple_of_dotless hdotless] at hsimple
      rw [hsimple]
      exact Name.isIdentifier_simple d.oldOwner.valid
    have hused : i.name ∈ changed.usedNames.toList :=
      mem_usedNamesExcept.mpr ⟨Name.ne_of_isIdentifier hvalid, i.name, hclosed i hi,
        Name.head_of_dotless hdotless⟩
    obtain ⟨full, hfull, hsimple⟩ : ∃ full ∈ plan.additions.toList, Name.simple full = i.name := by
      by_contra hnone
      refine hdiffers ?_
      rw [SymbolTable.resolve_of_dotless hdotless, SymbolTable.resolve_of_dotless hdotless]
      exact run.resolveSimple_eq hused fun full hfull heq => hnone ⟨full, hfull, heq⟩
    obtain ⟨c, hc, hchanges, hasked, _, hcsimple⟩ := exists_entry_of_planned run hmoves hfull
    rw [← hsimple, hcsimple] at hmatch
    exact not_matchesQualifier_written run hapart hbound hc hdmem hchanges hasked hmatch

/-- **What is settled is left alone in the changed module.** -/
theorem spares_of_settled {a : FieldAccess} (howner : a.owner = none)
    (hsettled : t.Settled (.ofModule m index) s a)
    (hclosed : ∀ i, a.target = .name i →
      i.name ∈ mentions [] (changed.types.map TypeDecl.outline)) :
    t.Spares (.ofModule out index) a := by
  cases hsettled with
  | unmatched none => exact fun d hd => nomatch (none _).symm.trans hd
  | spared spares => exact spares_after run hapart hmoves hbound howner spares hclosed
  | @written c i mem changes member target simple asked =>
    intro d hd
    have hspelled : a.target.dottedName? = some c.newOwner.simpleName := by
      rw [target, ← simple]
      rfl
    exact absurd (matchesQualifier_of_find? howner hd hspelled)
      (not_matchesQualifier_written run hapart hbound mem (mem_of_find? hd) changes asked)

end ConstantTable

/-! ### Recipes -/

theorem ConstantTable.dotless_ofMappings {ms : List ConstantMapping} {t : ConstantTable}
    (h : ofMappings ms = .ok t) : ∀ c ∈ t.entries, Name.Dotless c.newMember := fun c hc =>
  Name.dotless_of_isIdentifier (isIdentifier_newMember h c hc)

namespace Recipe

/-- **Moving constants twice is moving them once**, for a table whose entries stay apart and a module
in which the names that were written mean the types that they were written for. -/
theorem apply_again {ms : List ConstantMapping} {t : ConstantTable}
    (ht : ConstantTable.ofMappings ms = .ok t) (hapart : t.Apart) {r : Recipe}
    (hr : r = .changeConstant t ∨ r = .changeConstants t) {source : String} {m : Module}
    (hparse : Module.parse source = .ok m) {index : TypeIndex} {changed : Option Module}
    {s : PassState} (hrun : t.pass (.ofModule m index) m (.start m) = some (changed, s))
    {a : Applied} (happly : r.apply index m = some (.ok a))
    (hbound : t.Bound s (.ofModule m index) (.ofModule a.module index)) :
    ∃ b, r.apply index a.module = some (.ok b) ∧ b.module = a.module
      ∧ b.report.changed = false := by
  have hpass : r.pass? = some t.pass := by
    rcases hr with rfl | rfl <;> rfl
  cases changed with
  | none =>
    have hfirst := happly
    rw [apply_of_pass? hpass, applyPass, hrun] at happly
    cases happly
    exact ⟨_, hfirst, rfl, rfl⟩
  | some changed =>
    obtain ⟨_, _, hm⟩ := parse_sound hparse
    obtain ⟨plan, _, run⟩ := run_spec hpass hrun happly
    obtain ⟨hmoves, hsettled, hclosed⟩ := ConstantTable.pass_settles hapart
      (ConstantTable.dotless_ofMappings ht) simple_qualify hrun (Module.ownerless hm)
    have hspares : Accesses (t.Spares (.ofModule a.module index))
        (a.module.types.map TypeDecl.outline) := by
      obtain ⟨lead, htypes⟩ := run.types
      rw [htypes, Outline.accesses_congr (Imports.collect_withFirstLead (fun _ => rfl) lead _)]
      intro x hx
      obtain ⟨howner, hx'⟩ := hsettled x hx
      exact ConstantTable.spares_of_settled run hapart hmoves hbound howner hx' (hclosed x hx)
    obtain ⟨s', hagain⟩ := ConstantTable.pass_of_spared hspares (.start a.module)
    refine ⟨⟨a.module, ⟨r.name, false, 0, [], [], s'.mismatches, []⟩⟩, ?_, rfl, rfl⟩
    rw [apply_of_pass? hpass, applyPass, hagain]
    rfl

/-- A constant moves to a class of the same simple name in another package, once spelled simply and once
in full, and gets another name there. -/
theorem apply_again_moved : ∃ t m a b,
    ConstantTable.ofMappings [⟨"a.Constants", "MAX", "b.Constants", "TOP"⟩] = .ok t ∧
    Module.parse "import a.Constants; class X { int y = Constants.MAX + a.Constants.MAX; }" = .ok m ∧
    (changeConstant t).apply (.ofList []) m = some (.ok a) ∧ a.report.changed = true ∧
    (changeConstant t).apply (.ofList []) a.module = some (.ok b) ∧
    b.module = a.module ∧ b.report.changed = false := by
  have hcheck : (do
      let t ← (ConstantTable.ofMappings [⟨"a.Constants", "MAX", "b.Constants", "TOP"⟩]).toOption
      let m ← (Module.parse
        "import a.Constants; class X { int y = Constants.MAX + a.Constants.MAX; }").toOption
      let run ← t.pass (.ofModule m (.ofList [])) m (.start m)
      let a ← ((changeConstant t).apply (.ofList []) m).bind Except.toOption
      return decide t.Apart && a.report.changed
        && decide (t.Bound run.2 (.ofModule m (.ofList [])) (.ofModule a.module (.ofList []))) :
      Option Bool) = some true := by
    decide +kernel
  obtain ⟨t, ht, hcheck⟩ := Option.bind_eq_some_iff.mp hcheck
  obtain ⟨m, hm, hcheck⟩ := Option.bind_eq_some_iff.mp hcheck
  obtain ⟨⟨changed, s⟩, hrun, hcheck⟩ := Option.bind_eq_some_iff.mp hcheck
  obtain ⟨a, ha, hcheck⟩ := Option.bind_eq_some_iff.mp hcheck
  obtain ⟨outcome, happly, hok⟩ := Option.bind_eq_some_iff.mp ha
  rw [eq_ok_of_toOption hok] at happly
  simp only [pure, Option.some.injEq, Bool.and_eq_true, decide_eq_true_eq] at hcheck
  obtain ⟨⟨hapart, hchanged⟩, hbound⟩ := hcheck
  obtain ⟨b, hb, hmodule, hsame⟩ := apply_again (eq_ok_of_toOption ht) hapart (.inl rfl)
    (eq_ok_of_toOption hm) hrun happly hbound
  exact ⟨t, m, a, b, eq_ok_of_toOption ht, eq_ok_of_toOption hm, happly, hchanged, hb, hmodule, hsame⟩

/-- An accepted table whose only entry writes what it matches itself: the second run changes the module
once more. -/
theorem apply_again_self : ∃ t m a b,
    ConstantTable.ofMappings [⟨"Constants", "MAX", "com.acme.Constants", "MAX"⟩] = .ok t ∧
    ¬ t.Apart ∧
    Module.parse "class A { int a = Constants.MAX; }" = .ok m ∧
    (changeConstant t).apply (.ofList []) m = some (.ok a) ∧
    (changeConstant t).apply (.ofList []) a.module = some (.ok b) ∧ b.report.changed = true := by
  have hcheck : (do
      let t ← (ConstantTable.ofMappings
        [⟨"Constants", "MAX", "com.acme.Constants", "MAX"⟩]).toOption
      let m ← (Module.parse "class A { int a = Constants.MAX; }").toOption
      let a ← ((changeConstant t).apply (.ofList []) m).bind Except.toOption
      let b ← ((changeConstant t).apply (.ofList []) a.module).bind Except.toOption
      return b.report.changed && !decide t.Apart : Option Bool) = some true := by
    decide +kernel
  obtain ⟨t, ht, hcheck⟩ := Option.bind_eq_some_iff.mp hcheck
  obtain ⟨m, hm, hcheck⟩ := Option.bind_eq_some_iff.mp hcheck
  obtain ⟨a, ha, hcheck⟩ := Option.bind_eq_some_iff.mp hcheck
  obtain ⟨b, hb, hcheck⟩ := Option.bind_eq_some_iff.mp hcheck
  obtain ⟨_, happly, hok⟩ := Option.bind_eq_some_iff.mp ha
  obtain ⟨_, hagain, hok'⟩ := Option.bind_eq_some_iff.mp hb
  rw [eq_ok_of_toOption hok] at happly
  rw [eq_ok_of_toOption hok'] at hagain
  simp only [pure, Option.some.injEq, Bool.and_eq_true, Bool.not_eq_true',
    decide_eq_false_iff_not] at hcheck
  exact ⟨t, m, a, b, eq_ok_of_toOption ht, hcheck.2, eq_ok_of_toOption hm, happly, hagain, hcheck.1⟩

/-- The entries stay apart, but the new owner is in the package of the module and not imported, so that
its simple name still means the imported old owner. -/
example : (do
    let t ← (ConstantTable.ofMappings [⟨"a.Constants", "MAX", "b.Constants", "MAX"⟩]).toOption
    let m ← (Module.parse
      "package b; import a.Constants; class X { int y = Constants.MAX; }").toOption
    let a ← ((changeConstant t).apply (.ofList []) m).bind Except.toOption
    let b ← ((changeConstant t).apply (.ofList []) a.module).bind Except.toOption
    return (decide t.Apart, b.report.changed) : Option (Bool × Bool)) = some (true, true) := by
  decide +kernel

end Recipe

end Migration
