import Migration.Proofs.Recipe.Repeated
import Migration.Proofs.Rule.Superclasses

/-!
# Changing superclasses twice

A superclass that the first run wrote has the new simple name, so the second run does not match it. One
that the first run left alone is looked up in other imports the second time. But all that the first run
imports has the new simple name, and it removes only imports under names that are not used any more; so
a superclass that starts with another name means what it meant before, and is left alone again
(`spares_after`).

Main result: a change of superclasses to another simple name, applied twice, is the same as applied once
(`Recipe.apply_superclass_again`). A dotted superclass that starts with the new simple name is the one
exception: what is imported may give it another meaning.
-/

namespace Migration

namespace SymbolTable

/-- What a name means depends on its head only. -/
theorem resolve_congr {t t' : SymbolTable} {name : String}
    (h : t'.resolveSimple (Name.head name) = t.resolveSimple (Name.head name)) :
    t'.resolve name = t.resolve name := by
  rw [resolve, resolve]
  by_cases hq : Name.isQualified name = true
  · rw [if_pos hq, if_pos hq, h]
  · have hdotless := Name.isQualified_eq_false.mp (Bool.eq_false_iff.mpr hq)
    rw [Name.head_of_dotless hdotless] at h
    rw [if_neg hq, if_neg hq, h]

end SymbolTable

/-- A type that can be read, the wildcard apart, starts with a word. -/
theorem TypeName.WellFormed.head_ne {t : TypeName} (h : t.WellFormed) (hany : t.name ≠ "?") :
    Name.head t.name ≠ "" ∧ Name.head t.name ≠ "?" := by
  have htext := ((TypeName.wellFormed_iff t).mp h).1
  rw [isTypeText, Bool.or_eq_true, beq_iff_eq, or_iff_right hany, isDottedText_eq] at htext
  cases hsegments : Name.segments t.name with
  | nil => exact absurd hsegments (Name.segments_ne_nil _)
  | cons s ss =>
    rw [hsegments] at htext
    have hs := (isChainText_cons.mp htext).1
    rw [Name.head_of_segments hsegments]
    constructor
    · rintro rfl
      exact absurd hs (by decide)
    · rintro rfl
      exact absurd hs (by decide)

namespace SupertypeChange

variable {c : SupertypeChange}

/-! ### Passes over superclasses that are left alone -/

theorem threaded_edits {symbols : SymbolTable} : Threaded c symbols fun s ts s' _ =>
    (∀ t ∈ ts, c.Spares symbols t) → s'.edits = s.edits where
  nil _ _ := rfl
  append h h' hall := by
    obtain ⟨hts, hts'⟩ := List.forall_mem_append.mp hall
    exact (h' hts').trans (h hts)
  replace {s s₁ d r} hask hall := by
    have hnone : (c.replace symbols d s).1 = none :=
      replace_eq_none_iff.mpr fun t ht => hall t (Option.mem_toList.mpr ht)
    rw [hask] at hnone
    obtain rfl : r = none := hnone
    exact edits_replace hask

/-- **A pass leaves a module alone when it leaves its superclasses alone.** -/
theorem pass_of_spared {symbols : SymbolTable} {m : Module}
    (hm : ∀ t ∈ m.superclasses, c.Spares symbols t) (s : PassState) :
    ∃ s', c.pass symbols m s = some (none, s') := by
  obtain ⟨⟨r, s'⟩, hrun⟩ := Option.isSome_iff_exists.mp (c.pass_ends symbols m s)
  have hedits : s'.edits = s.edits := threaded_edits.pass hrun hm
  obtain ⟨_, htells⟩ := (c.counting symbols).transform_tells _ m s r s' hrun
  cases r with
  | none => exact ⟨s', hrun⟩
  | some changed =>
    have hgrows := (htells.mp rfl).resolve_left Bool.false_ne_true
    omega

/-! ### The scope of the changed module -/

section Scope

variable {index : TypeIndex} {m changed out : Module} {s : PassState} {plan : Imports.Plan}
  (run : LeafRun index m s changed out plan)
  (hasked : ∀ new ∈ s.additions.toList, new = c.new.spelled)

include run hasked

/-- Only the new type is imported. -/
theorem qualify_of_planned {full : String} (hfull : full ∈ plan.additions.toList) :
    (SymbolTable.ofModule m index).qualify c.new.spelled = .type full := by
  obtain ⟨new, hnew, hqualify⟩ := run.planned full hfull
  rw [← hasked new hnew]
  exact hqualify

/-- A new type without a known full name does not get one: nothing is imported then. -/
theorem qualifiedIn?_after (h : c.new.qualifiedIn? (.ofModule m index) = none) :
    c.new.qualifiedIn? (.ofModule out index) = none := by
  rw [TypePattern.qualifiedIn?_eq] at h ⊢
  refine run.qualify_unknown (fun full hfull _ => ?_) h
  rw [qualify_of_planned run hasked hfull] at h
  cases h

/-- A superclass that starts with another name than the new one means what it meant before. -/
theorem resolve_after {t : TypeName} (ht : t ∈ changed.superclasses)
    (hused : Name.head t.name ≠ "" ∧ Name.head t.name ≠ "?")
    (hhead : Name.head t.name ≠ c.new.simpleName) :
    (SymbolTable.ofModule out index).resolve t.name
      = (SymbolTable.ofModule m index).resolve t.name := by
  refine SymbolTable.resolve_congr (run.resolveSimple_eq ?_ fun full hfull hsimple => hhead ?_)
  · exact mem_usedNamesExcept.mpr ⟨hused, t.name, Module.name_mem_mentions ht, rfl⟩
  · rw [← hsimple]
    exact simple_qualify (qualify_of_planned run hasked hfull)

/-- **A superclass that was left alone is left alone in the changed module.** -/
theorem spares_after (hnames : c.old.simpleName ≠ c.new.simpleName) {t : TypeName}
    (ht : t ∈ changed.superclasses) (hform : t.WellFormed)
    (hhead : t.isQualified = true → Name.head t.name ≠ c.new.simpleName)
    (h : c.Spares (.ofModule m index) t) : c.Spares (.ofModule out index) t := by
  rcases h with hno | ⟨hq, hunknown⟩
  · by_cases hsimple : t.simpleName = c.old.simpleName
    · have hany : t.name ≠ "?" := by
        intro hname
        rw [TypeName.simpleName, hname] at hsimple
        exact (Name.ne_of_isIdentifier (Name.isIdentifier_simple c.old.valid)).2 hsimple.symm
      have hother : Name.head t.name ≠ c.new.simpleName := by
        by_cases hq : t.isQualified = true
        · exact hhead hq
        · -- An undotted superclass is spelled like the old simple name.
          have hdotless := Name.isQualified_eq_false.mp (Bool.eq_false_iff.mpr hq)
          rw [TypeName.simpleName, Name.simple_of_dotless hdotless] at hsimple
          rw [Name.head_of_dotless hdotless, hsimple]
          exact hnames
      have hresolve := resolve_after run hasked ht (hform.head_ne hany) hother
      have hresolved := ((TypeName.wellFormed_iff t).mp hform).2.1
      refine .inl ?_
      rw [← hno]
      simp only [TypePattern.matchesSuperclass, TypePattern.superclassName?, hresolved, hresolve]
    · refine .inl ?_
      rw [TypePattern.matchesSuperclass, beq_false_of_ne hsimple, Bool.false_and]
  · exact .inr ⟨hq, qualifiedIn?_after run hasked hunknown⟩

end Scope

end SupertypeChange

namespace Recipe

/-- **Changing superclasses twice is changing them once**, for a change to another simple name and a
module in which no dotted superclass starts with that name. -/
theorem apply_superclass_again {c : SupertypeChange} (hnames : c.old.simpleName ≠ c.new.simpleName)
    {source : String} {m : Module} (hparse : Module.parse source = .ok m)
    (hheads : ∀ t ∈ m.superclasses, t.isQualified = true → Name.head t.name ≠ c.new.simpleName)
    {index : TypeIndex} {a : Applied} (happly : (changeSupertype c).apply index m = some (.ok a)) :
    ∃ b, (changeSupertype c).apply index a.module = some (.ok b) ∧ b.module = a.module
      ∧ b.report.changed = false ∧ b.report.edits = 0 := by
  have hpass : (changeSupertype c).pass? = some c.pass := rfl
  obtain ⟨⟨changed, s⟩, hrun⟩ :=
    Option.isSome_iff_exists.mp (c.pass_ends (.ofModule m index) m (.start m))
  cases changed with
  | none =>
    have hfirst := happly
    rw [apply_of_pass? hpass, applyPass, hrun] at happly
    cases happly
    exact ⟨_, hfirst, rfl, rfl, rfl⟩
  | some changed =>
    obtain ⟨_, _, hm⟩ := parse_sound hparse
    obtain ⟨plan, _, run⟩ := run_spec hpass hrun happly
    have hasked : ∀ new ∈ s.additions.toList, new = c.new.spelled := by
      obtain ⟨_, _, hasks, _⟩ := pass_changes hpass hrun
      intro new hnew
      rcases hasks new hnew with hnone | ⟨p, rfl, hspelled, _⟩
      · cases hnone
      · exact hspelled.symm
    have hspares : ∀ t ∈ a.module.superclasses, c.Spares (.ofModule a.module index) t := by
      obtain ⟨lead, htypes⟩ := run.types
      intro t ht
      rw [Module.superclasses, htypes, superclasses_withFirstLead] at ht
      rcases SupertypeChange.pass_retargets (fun full hfull =>
        simple_qualify (TypePattern.qualifiedIn?_eq_some hfull)) hrun ht with hnew | ⟨hmem, hsame⟩
      · refine .inl ?_
        rw [TypePattern.matchesSuperclass, hnew, beq_false_of_ne hnames.symm, Bool.false_and]
      · exact SupertypeChange.spares_after run hasked hnames ht
          (Module.wellFormed_superclass hm hmem) (hheads t hmem) hsame
    obtain ⟨s', hagain⟩ := SupertypeChange.pass_of_spared hspares (.start a.module)
    refine ⟨⟨a.module, ⟨name (changeSupertype c), false, 0, [], [], s'.mismatches, []⟩⟩, ?_, rfl,
      rfl, rfl⟩
    rw [apply_of_pass? hpass, applyPass, hagain]
    rfl

/-- A class, one inside it that spells the old type in full, and one that extends another type of the
old simple name, which is left alone both times although the import of the old type is gone. -/
theorem apply_superclass_again_nested : ∃ c m a b,
    SupertypeChange.ofNames "a.V" "b.C" = .ok c ∧
    c.old.simpleName ≠ c.new.simpleName ∧
    Module.parse "import a.V; class X extends V { class Y extends a.V {} class Z extends q.V {} }"
      = .ok m ∧
    (changeSupertype c).apply (.ofList []) m = some (.ok a) ∧
    a.module.print
      = "import b.C; class X extends C { class Y extends b.C {} class Z extends q.V {} }" ∧
    (changeSupertype c).apply (.ofList []) a.module = some (.ok b) ∧
    b.module = a.module ∧ b.report.changed = false ∧ b.report.edits = 0 := by
  have hcheck : (do
      let c ← (SupertypeChange.ofNames "a.V" "b.C").toOption
      let m ← (Module.parse
        "import a.V; class X extends V { class Y extends a.V {} class Z extends q.V {} }").toOption
      let a ← ((changeSupertype c).apply (.ofList []) m).bind Except.toOption
      return decide (c.old.simpleName ≠ c.new.simpleName)
        && (m.superclasses.all fun t => Name.head t.name != c.new.simpleName)
        && a.module.print
          == "import b.C; class X extends C { class Y extends b.C {} class Z extends q.V {} }" :
      Option Bool) = some true := by
    decide +kernel
  obtain ⟨c, hc, hcheck⟩ := Option.bind_eq_some_iff.mp hcheck
  obtain ⟨m, hm, hcheck⟩ := Option.bind_eq_some_iff.mp hcheck
  obtain ⟨a, ha, hcheck⟩ := Option.bind_eq_some_iff.mp hcheck
  obtain ⟨outcome, happly, hok⟩ := Option.bind_eq_some_iff.mp ha
  rw [eq_ok_of_toOption hok] at happly
  simp only [pure, Option.some.injEq, Bool.and_eq_true, decide_eq_true_eq, beq_iff_eq,
    List.all_eq_true, bne_iff_ne] at hcheck
  obtain ⟨⟨hnames, hheads⟩, hprint⟩ := hcheck
  obtain ⟨b, hb, hsame⟩ := apply_superclass_again hnames (eq_ok_of_toOption hm)
    (fun t ht _ => hheads t ht) happly
  exact ⟨c, m, a, b, eq_ok_of_toOption hc, hnames, eq_ok_of_toOption hm, happly, hprint, hb, hsame⟩

/-- A dotted superclass that starts with the new simple name: the import that the first run adds makes it
a match for the second. -/
example : (do
    let c ← (SupertypeChange.ofNames "b.Car.Vehicle" "b.Car").toOption
    let m ← (Module.parse "class X extends Vehicle {} class Y extends Car.Vehicle {}").toOption
    let a ← ((changeSupertype c).apply (.ofList []) m).bind Except.toOption
    let b ← ((changeSupertype c).apply (.ofList []) a.module).bind Except.toOption
    return (a.report.edits, b.report.edits) : Option (Nat × Nat)) = some (1, 1) := by
  decide +kernel

end Recipe

end Migration
