import Migration.Proofs.Imports.Breaks
import Migration.Proofs.Recipe.Readable

/-!
# Line breaks stay what they are

A leaf puts names and imports into a module, and the imports stand on lines of their own. Which line breaks
divide these is told by the trivia in front of the imports, of the types and of the end of the file. So a
module with Windows line breaks and no others keeps to them if it shows one at these places; if it shows none
there, each import that is added comes with a bare line feed, but for one that takes the place of all others
(`Recipe.apply_line_breaks`). A module without carriage returns gets none.
-/

namespace Migration

open Change (Each)
open Imports (breakSamples lineBreak)
open Text (BreakLaw IsWindows)

variable {P : List Char → Prop}

/-- Configured members have no line breaks. -/
theorem RecipeSpec.membersObey_build (hP : BreakLaw P) {spec : RecipeSpec} {r : Recipe}
    (h : spec.build = .ok r) : r.MembersObey P := by
  have htable {ms : List ConstantMapping} {t : ConstantTable} (ht : ConstantTable.ofMappings ms = .ok t) :
      ∀ c ∈ t.entries, P c.newMember.toList := fun c hc =>
    hP.unbroken (Name.unbroken_of_isIdentifier (ConstantTable.isIdentifier_newMember ht c hc))
  cases spec with
  | changeSupertype old new =>
    obtain ⟨c, _, h⟩ := bind_eq_ok.mp h
    cases h
    trivial
  | changeConstant mapping =>
    obtain ⟨t, ht, h⟩ := bind_eq_ok.mp h
    cases h
    exact htable ht
  | changeConstants mappings =>
    obtain ⟨t, ht, h⟩ := bind_eq_ok.mp h
    cases h
    exact htable ht
  | pipeline name specs =>
    obtain ⟨rs, _, h⟩ := bind_eq_ok.mp h
    rw [buildPipeline] at h
    split at h
    · cases h
    · cases h
      trivial

theorem Imports.breakSamples_inherits {m : Module} {σ : Type} {s s' : σ} {types : List TypeDecl}
    (h : Each (inheritsDecl P) s m.types s' types) : breakSamples { m with types } = breakSamples m := by
  have hleads : types.map (·.lead) = m.types.map (·.lead) := by
    generalize m.types = old at h
    induction h with
    | nil => rfl
    | cons hx _ ih => rw [List.map_cons, List.map_cons, hx.1, ih]
  simp only [breakSamples, hleads]

variable {m : Module} {r : Recipe} {pass : SymbolTable → Module → Pass PassState (Option Module)}
  {index : TypeIndex} {a : Applied}

namespace Recipe

/-- **A leaf keeps a property of line breaks**, provided that the known names have it, exactly if the line
breaks of the module have it, or no import is added, or one in the place of all others. -/
theorem apply_obeys_iff (hP : BreakLaw P) (hr : r.pass? = some pass) (hmembers : r.MembersObey P)
    (hwf : m.WellFormed) (hm : m.Obeys P) (hindex : ∀ name ∈ index.toList, P name.toList)
    (h : r.apply index m = some (.ok a)) :
    P a.module.print.toList ↔ P (lineBreak m).toList ∨ a.report.importsAdded = [] ∨
      a.report.importsAdded.length = 1 ∧ m.imports ≠ []
        ∧ a.report.importsRemoved = m.imports.map (·.name) := by
  have hsymbols := SymbolTable.obeys_ofModule hP hwf hindex
  rw [apply_of_pass? hr] at h
  obtain ⟨⟨changed, s⟩, hrun, h⟩ := Option.map_eq_some_iff.mp h
  dsimp only at h
  split at h
  case h_1 =>
    cases h
    exact iff_of_true (hm.toList_print hP) (.inr (.inl rfl))
  case h_2 changed =>
    split at h
    case h_1 => cases h
    case h_2 out changes hreconcile =>
      cases h
      obtain ⟨types, heach, hout⟩ := pass_inherits hP hr hmembers hsymbols hrun
      cases hout
      have hasked : ∀ name ∈ s.additions.toList, P name.toList := by
        intro name hname
        obtain ⟨_, _, hasks, _⟩ := pass_changes hr hrun
        obtain hstart | ⟨p, _, rfl, _⟩ := hasks name hname
        · cases hstart
        · exact hP.unbroken (Name.unbroken_of_isTypeName p.valid)
      rw [lineBreak, ← Imports.breakSamples_inherits heach]
      refine ⟨fun hprint => Module.lineBreak_of_reconcile hP hreconcile hprint, fun hbreaks => ?_⟩
      exact ((hm.withTypes heach).reconcile hP hsymbols hasked hreconcile hbreaks).toList_print hP

end Recipe

/-- What is configured, built and applied to a source: the recipe, the module that is read, and the outcome. -/
def RecipeSpec.run? (spec : RecipeSpec) (index : TypeIndex) (source : String) :
    Option (Recipe × Module × Applied) := do
  let r ← spec.build.toOption
  let m ← (Module.parse source).toOption
  let outcome ← r.apply index m
  let a ← outcome.toOption
  return (r, m, a)

theorem RecipeSpec.run?_eq_some {spec : RecipeSpec} {index : TypeIndex} {source : String}
    (h : spec.run? index source = some (r, m, a)) :
    spec.build = .ok r ∧ Module.parse source = .ok m ∧ r.apply index m = some (.ok a) := by
  obtain ⟨r', hr, h⟩ := Option.bind_eq_some_iff.mp h
  obtain ⟨m', hm, h⟩ := Option.bind_eq_some_iff.mp h
  obtain ⟨outcome, happly, h⟩ := Option.bind_eq_some_iff.mp h
  obtain ⟨a', ha, h⟩ := Option.bind_eq_some_iff.mp h
  cases h
  rw [eq_ok_of_toOption ha] at happly
  exact ⟨eq_ok_of_toOption hr, eq_ok_of_toOption hm, happly⟩

namespace Recipe

/-- **Which Windows modules stay Windows modules**: those that show a Windows line break in front of an import,
of a type or of the end of the file, and of the others those into which no line break is put, because there
is no import to add, or a single one in the place of all others. No module gets carriage returns that it did
not have. -/
theorem apply_line_breaks {source : String} (hparse : Module.parse source = .ok m) {spec : RecipeSpec}
    (hbuild : spec.build = .ok r) (hr : r.pass? = some pass) (h : r.apply index m = some (.ok a)) :
    (IsWindows source.toList → (∀ name ∈ index.toList, IsWindows name.toList) →
      (IsWindows a.module.print.toList ↔
        (∃ lead ∈ breakSamples m, ['\r', '\n'] <:+: lead.toList) ∨ a.report.importsAdded = [] ∨
          a.report.importsAdded.length = 1 ∧ m.imports ≠ []
            ∧ a.report.importsRemoved = m.imports.map (·.name))) ∧
    ('\r' ∉ source.toList → (∀ name ∈ index.toList, '\r' ∉ name.toList) →
      '\r' ∉ a.module.print.toList) := by
  obtain ⟨_, _, hwf⟩ := parse_sound hparse
  refine ⟨fun hsource hindex => ?_, fun hsource hindex => ?_⟩
  · have hP := Text.breakLaw_isWindows
    have hm := Module.obeys_parse hP hparse hsource
    rw [← Imports.isWindows_lineBreak_iff]
    exact apply_obeys_iff hP hr (RecipeSpec.membersObey_build hP hbuild) hwf hm hindex h
  · have hP := Text.breakLaw_noReturn
    have hm := Module.obeys_parse hP hparse hsource
    refine (apply_obeys_iff hP hr (RecipeSpec.membersObey_build hP hbuild) hwf hm hindex h).mpr (.inl ?_)
    exact Imports.noReturn_lineBreak hm.breakSamples

/-- A Windows line break in front of a class shows. One inside of a class does not, so the import that is put
in front of it ends with a bare line feed. A class without carriage returns gets none. -/
theorem apply_line_breaks_members : ∃ r pass m m' m'' a a' a'',
    RecipeSpec.build (.changeSupertype "Vehicle" "com.new.Car") = .ok r ∧ r.pass? = some pass ∧
    Module.parse "package p;\r\n\r\nclass X extends Vehicle {} // a\r\n" = .ok m ∧
    Module.parse "class X extends Vehicle \x7b\r\n    int a;\r\n\x7d" = .ok m' ∧
    Module.parse "class X extends Vehicle {}\n" = .ok m'' ∧
    r.apply (.ofList ["com.new.Car"]) m = some (.ok a) ∧
    r.apply (.ofList ["com.new.Car"]) m' = some (.ok a') ∧
    r.apply (.ofList ["com.new.Car"]) m'' = some (.ok a'') ∧
    a.module.print = "package p;\r\n\r\nimport com.new.Car;\r\n\r\nclass X extends Car {} // a\r\n" ∧
    a'.module.print = "import com.new.Car;\n\nclass X extends Car \x7b\r\n    int a;\r\n\x7d" ∧
    a''.module.print = "import com.new.Car;\n\nclass X extends Car {}\n" ∧
    IsWindows a.module.print.toList ∧ ¬ IsWindows a'.module.print.toList ∧
    '\r' ∉ a''.module.print.toList := by
  let leaf : RecipeSpec := .changeSupertype "Vehicle" "com.new.Car"
  let known : TypeIndex := .ofList ["com.new.Car"]
  have hwindows : (leaf.run? known "package p;\r\n\r\nclass X extends Vehicle {} // a\r\n").map
      (fun (_, m, a) => (breakSamples m, a.module.print)) = some (["\r\n\r\n", " // a\r\n"],
        "package p;\r\n\r\nimport com.new.Car;\r\n\r\nclass X extends Car {} // a\r\n") := by
    decide +kernel
  have hmembers : (leaf.run? known "class X extends Vehicle \x7b\r\n    int a;\r\n\x7d").map
      (fun (_, m, a) => (breakSamples m, m.imports.length, a.report.importsAdded, a.module.print))
      = some (["", ""], 0, ["com.new.Car"],
        "import com.new.Car;\n\nclass X extends Car \x7b\r\n    int a;\r\n\x7d") := by
    decide +kernel
  have hplain : (leaf.run? known "class X extends Vehicle {}\n").map (fun (_, _, a) => a.module.print)
      = some "import com.new.Car;\n\nclass X extends Car {}\n" := by
    decide +kernel
  obtain ⟨⟨r, m, a⟩, hrun, hwindows⟩ := Option.map_eq_some_iff.mp hwindows
  obtain ⟨⟨r', m', a'⟩, hrun', hmembers⟩ := Option.map_eq_some_iff.mp hmembers
  obtain ⟨⟨r'', m'', a''⟩, hrun'', hplain⟩ := Option.map_eq_some_iff.mp hplain
  obtain ⟨hbuild, hm, ha⟩ := RecipeSpec.run?_eq_some hrun
  obtain ⟨hbuild', hm', ha'⟩ := RecipeSpec.run?_eq_some hrun'
  obtain ⟨hbuild'', hm'', ha''⟩ := RecipeSpec.run?_eq_some hrun''
  cases hbuild.symm.trans hbuild'
  cases hbuild.symm.trans hbuild''
  obtain ⟨pass, hpass⟩ : ∃ pass, r.pass? = some pass := by
    obtain ⟨c, _, hc⟩ := bind_eq_ok.mp hbuild
    cases hc
    exact ⟨_, rfl⟩
  simp only [Prod.mk.injEq] at hwindows hmembers
  obtain ⟨hsamples, hprint⟩ := hwindows
  obtain ⟨hsamples', himports', hadded', hprint'⟩ := hmembers
  have hfirst := (apply_line_breaks hm hbuild hpass ha).1 (by decide) (by decide)
  have hsecond := (apply_line_breaks hm' hbuild hpass ha').1 (by decide) (by decide)
  have hthird := (apply_line_breaks hm'' hbuild hpass ha'').2 (by decide) (by decide)
  rw [hsamples] at hfirst
  rw [hsamples', hadded'] at hsecond
  refine ⟨r, pass, m, m', m'', a, a', a'', hbuild, hpass, hm, hm', hm'', ha, ha', ha'', hprint, hprint',
    hplain, hfirst.mpr (.inl ⟨_, List.mem_cons_self, ['\r', '\n'], [], rfl⟩), fun hbreaks => ?_, hthird⟩
  rcases hsecond.mp hbreaks with ⟨lead, hlead, hbreak⟩ | hnone | ⟨_, himports, _⟩
  · have hempty : lead = "" := by simpa using hlead
    rw [hempty] at hbreak
    exact absurd hbreak (by decide)
  · cases hnone
  · exact himports (List.length_eq_zero_iff.mp himports')

end Recipe

end Migration
