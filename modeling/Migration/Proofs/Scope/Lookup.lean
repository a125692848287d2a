import Migration.Proofs.Imports.Reconcile
import Migration.Proofs.Rule.Notes
import Migration.Proofs.Scope.KnownTypes

/-!
# Lookup before and after a recipe

A simple name is looked up tier by tier: `resolveSimple_declared`, `resolveSimple_imported` and
`resolveSimple_packages` are the three ways it can go. A leaf recipe touches only the second tier. The
module that it gives back declares the same types, stands in the same package and imports the same
packages on demand, and its code uses the names that it used when the pass was over
(`Recipe.run_spec`).
-/

namespace Migration

open Outline (mentions mentions_cons typesAll)
open Imports (importedAs onDemandOf)

/-! ### The tiers -/

theorem lookupFirst_reverse (key : String) (pairs : List (String × String)) :
    lookupFirst key pairs.reverse = ((pairs.filter (·.1 == key)).map (·.2)).getLast? := by
  rw [lookupFirst, ← List.head?_filter, List.filter_reverse, List.head?_reverse,
    List.getLast?_map]

theorem lookupFirst_firstByKey (key : String) (pairs : List (String × String)) :
    lookupFirst key (firstByKey pairs) = lookupFirst key pairs := by
  rw [lookupFirst, lookupFirst]
  congr 1
  induction pairs with
  | nil => rfl
  | cons p ps ih =>
    rw [firstByKey, List.find?_cons, List.find?_cons]
    cases hp : p.1 == key with
    | true => rfl
    | false =>
      simp only
      rw [List.find?_filter, ← ih]
      congr 1
      funext q
      rw [Bool.eq_iff_iff, decide_eq_true_iff, bne_iff_ne, beq_iff_eq]
      refine ⟨And.right, fun hq => ⟨?_, hq⟩⟩
      intro heq
      rw [← heq, hq, beq_self_eq_true] at hp
      cases hp

theorem mem_firstByKey_iff {p : String × String} {pairs : List (String × String)} :
    p ∈ firstByKey pairs ↔ pairs.find? (·.1 == p.1) = some p := by
  induction pairs with
  | nil => exact iff_of_false List.not_mem_nil nofun
  | cons q qs ih =>
    rw [firstByKey, List.mem_cons, List.mem_filter, ih, bne_iff_ne, List.find?_cons]
    by_cases hkey : q.1 = p.1
    · rw [beq_iff_eq.mpr hkey]
      simp only [Option.some.injEq, hkey, ne_eq, not_true_eq_false, and_false, or_false]
      exact eq_comm
    · rw [beq_false_of_ne hkey]
      refine ⟨fun h => (h.resolve_left ?_).1, fun h => .inr ⟨h, Ne.symm hkey⟩⟩
      rintro rfl
      exact hkey rfl

theorem lookupFirst_locals {m : Module} {index : TypeIndex} {simple : String} :
    lookupFirst simple (SymbolTable.ofModule m index).locals
      = (m.declaredTypes.find? (·.simpleName == simple)).map (·.qualifiedName) := by
  simp only [SymbolTable.ofModule]
  rw [lookupFirst_firstByKey, lookupFirst, List.find?_map, Option.map_map]
  rfl

theorem lookupFirst_locals_eq_none {m : Module} {index : TypeIndex} {simple : String} :
    lookupFirst simple (SymbolTable.ofModule m index).locals = none ↔
      ∀ d ∈ m.declaredTypes, d.simpleName ≠ simple := by
  rw [lookupFirst_locals, Option.map_eq_none_iff, List.find?_eq_none]
  simp

namespace SymbolTable

variable {m : Module} {index : TypeIndex} {simple : String}

theorem lookupFirst_explicit :
    lookupFirst simple (ofModule m index).explicit.reverse
      = (importedAs simple m.imports).getLast? := by
  rw [lookupFirst_reverse, ofModule, Module.typeImports, List.filter_map, List.map_map,
    List.filter_filter]
  exact congrArg List.getLast? (congrArg (List.map _) (List.filter_congr fun i _ => Bool.and_comm _ _))

/-- The third and the fourth tier. -/
def inPackages (t : SymbolTable) (simple : String) : Resolved :=
  match t.samePackage simple with
  | [] => .ofCandidates (t.visibleOnDemand simple)
  | names => .ofCandidates names

theorem resolveSimple_declared {t : SymbolTable} {name : String}
    (h : lookupFirst simple t.locals = some name) : t.resolveSimple simple = .type name := by
  rw [resolveSimple, h]

theorem resolveSimple_imported {name : String}
    (hlocal : lookupFirst simple (ofModule m index).locals = none)
    (h : (importedAs simple m.imports).getLast? = some name) :
    (ofModule m index).resolveSimple simple = .type name := by
  rw [resolveSimple, hlocal, lookupFirst_explicit, h]

theorem resolveSimple_packages
    (hlocal : lookupFirst simple (ofModule m index).locals = none)
    (h : importedAs simple m.imports = []) :
    (ofModule m index).resolveSimple simple = (ofModule m index).inPackages simple := by
  rw [resolveSimple, hlocal, lookupFirst_explicit, h]
  rfl

theorem resolve_of_dotless {t : SymbolTable} (h : Name.Dotless simple) :
    t.resolve simple = t.resolveSimple simple := by
  rw [resolve, Name.isQualified_eq_false.mpr h]
  rfl

/-- The type is in a package whose types are visible without an import of their own. -/
def Visible (t : SymbolTable) (name : String) : Prop :=
  Name.qualifier? name = t.package ∨
    ∃ package, Name.qualifier? name = some package
      ∧ (package = implicitPackage ∨ package ∈ t.onDemand)

theorem mem_samePackage {t : SymbolTable} {name : String} : name ∈ t.samePackage simple ↔
    name ∈ t.index.candidates simple ∧ Name.qualifier? name = t.package := by
  rw [samePackage, List.mem_filter, beq_iff_eq]

theorem mem_visibleOnDemand {t : SymbolTable} {name : String} :
    name ∈ t.visibleOnDemand simple ↔ name ∈ t.index.candidates simple
      ∧ ∃ package, Name.qualifier? name = some package
        ∧ (package = implicitPackage ∨ package ∈ t.onDemand) := by
  rw [visibleOnDemand, List.mem_filter]
  refine and_congr_right fun _ => ?_
  cases hq : Name.qualifier? name with
  | none => simp
  | some package => simp

theorem visible_of_inPackages {t : SymbolTable} {name : String}
    (h : t.inPackages simple = .type name) : t.Visible name := by
  have hsingle {names : List String} (h : Resolved.ofCandidates names = .type name) :
      name ∈ names := by
    match names, h with
    | [_], h =>
      cases h
      exact List.mem_cons_self
  rw [inPackages] at h
  split at h
  · exact .inr (mem_visibleOnDemand.mp (hsingle h)).2
  · exact .inl (mem_samePackage.mp (hsingle h)).2

/-- **What a configured name can stand for**: itself where it is dotted, or else a declared type, an
imported one, or a known one. -/
theorem qualify_cases {name full : String} (h : (ofModule m index).qualify name = .type full) :
    full = name ∨ Name.Dotless name ∧
      ((∃ d ∈ m.declaredTypes, d.simpleName = name ∧ d.qualifiedName = full) ∨
        (∃ i ∈ m.imports, i.isSingleType = true ∧ Name.simple i.name = name ∧ i.name = full) ∨
        full ∈ index.candidates name) := by
  have hcandidates {names : List String} (hsub : ∀ x ∈ names, x ∈ index.candidates name)
      (hone : Resolved.ofCandidates names = .type full) : full ∈ index.candidates name := by
    match names, hone with
    | [x], hone =>
      cases hone
      exact hsub full List.mem_cons_self
  rw [qualify] at h
  split at h
  case isTrue =>
    cases h
    exact .inl rfl
  case isFalse hq =>
    refine .inr ⟨Name.isQualified_eq_false.mp (Bool.eq_false_iff.mpr hq), ?_⟩
    split at h
    case h_1 => exact .inr (.inr (hcandidates (fun _ hx => hx) h))
    case h_2 =>
      cases hlocal : lookupFirst name (ofModule m index).locals with
      | some other =>
        rw [resolveSimple_declared hlocal] at h
        cases h
        rw [lookupFirst_locals] at hlocal
        obtain ⟨d, hd, rfl⟩ := Option.map_eq_some_iff.mp hlocal
        exact .inl ⟨d, List.mem_of_find?_eq_some hd, by simpa using List.find?_some hd, rfl⟩
      | none =>
        cases hlast : (importedAs name m.imports).getLast? with
        | some other =>
          rw [resolveSimple_imported hlocal hlast] at h
          cases h
          obtain ⟨i, hi, rfl⟩ := List.mem_map.mp (List.mem_of_getLast? hlast)
          obtain ⟨hi, htest⟩ := List.mem_filter.mp hi
          rw [Bool.and_eq_true, beq_iff_eq] at htest
          exact .inr (.inl ⟨i, hi, htest.1, htest.2, rfl⟩)
        | none =>
          rw [resolveSimple_packages hlocal (List.getLast?_eq_none_iff.mp hlast), inPackages] at h
          refine .inr (.inr ?_)
          split at h
          · exact hcandidates (fun _ hx => (mem_visibleOnDemand.mp hx).1) h
          · exact hcandidates (fun _ hx => (mem_samePackage.mp hx).1) h

theorem nodup_samePackage (t : SymbolTable) (simple : String) : (t.samePackage simple).Nodup :=
  (t.index.nodup_candidates simple).sublist List.filter_sublist

theorem nodup_visibleOnDemand (t : SymbolTable) (simple : String) :
    (t.visibleOnDemand simple).Nodup :=
  (t.index.nodup_candidates simple).sublist List.filter_sublist

theorem eq_singleton_of_nodup {names : List String} {name : String} (hnodup : names.Nodup)
    (hmem : name ∈ names) (hall : ∀ x ∈ names, x = name) : names = [name] := by
  match names with
  | [x] => rw [hall x List.mem_cons_self]
  | x :: y :: rest =>
    have hx := hall x List.mem_cons_self
    have hy := hall y (List.mem_cons_of_mem _ List.mem_cons_self)
    rw [hx, hy] at hnodup
    exact absurd hnodup (by simp)

/-- A known type of the module's own package is found by its simple name. -/
theorem inPackages_own {t : SymbolTable} {name : String}
    (hname : name ∈ t.index.candidates simple) (hq : Name.qualifier? name = t.package) :
    t.inPackages simple = .type name := by
  have hsame (x : String) (hx : x ∈ t.samePackage simple) : x = name := by
    obtain ⟨hx, hxq⟩ := mem_samePackage.mp hx
    refine Name.eq_of_qualifier_simple (by rw [hxq, hq]) ?_
    rw [(TypeIndex.mem_candidates.mp hx).2, (TypeIndex.mem_candidates.mp hname).2]
  rw [inPackages, eq_singleton_of_nodup (t.nodup_samePackage simple)
    (mem_samePackage.mpr ⟨hname, hq⟩) hsame]
  rfl

/-- A known type of a package imported on demand is found by its simple name exactly when no other
type of that name is visible. -/
theorem inPackages_onDemand {t : SymbolTable} {name : String}
    (hname : name ∈ t.index.candidates simple) (hvisible : t.Visible name)
    (hq : Name.qualifier? name ≠ t.package) :
    t.inPackages simple = .type name ↔
      ∀ other ∈ t.index.candidates simple, t.Visible other → other = name := by
  have hdemand : name ∈ t.visibleOnDemand simple :=
    mem_visibleOnDemand.mpr ⟨hname, hvisible.resolve_left hq⟩
  constructor
  · intro h
    rw [inPackages] at h
    split at h
    · next hsame =>
      intro other hother hvis
      rcases hvis with hown | hdem
      · have : other ∈ t.samePackage simple := mem_samePackage.mpr ⟨hother, hown⟩
        rw [hsame] at this
        cases this
      · have hmem : other ∈ t.visibleOnDemand simple := mem_visibleOnDemand.mpr ⟨hother, hdem⟩
        match hlist : t.visibleOnDemand simple, h with
        | [_], h =>
          cases h
          rw [hlist] at hmem
          exact List.mem_singleton.mp hmem
    · have hmem : name ∈ t.samePackage simple := by
        match hlist : t.samePackage simple, h with
        | [_], h =>
          cases h
          exact List.mem_cons_self
      exact absurd (mem_samePackage.mp hmem).2 hq
  · intro h
    have hsame : t.samePackage simple = [] := by
      rw [List.eq_nil_iff_forall_not_mem]
      intro x hx
      obtain ⟨hx, hxq⟩ := mem_samePackage.mp hx
      rw [h x hx (.inl hxq)] at hxq
      exact hq hxq
    have hall (x : String) (hx : x ∈ t.visibleOnDemand simple) : x = name := by
      obtain ⟨hx, hdem⟩ := mem_visibleOnDemand.mp hx
      exact h x hx (.inr hdem)
    rw [inPackages, hsame, eq_singleton_of_nodup (t.nodup_visibleOnDemand simple) hdemand hall]
    rfl

end SymbolTable

/-! ### A leaf recipe -/

theorem mentions_withFirstLead (skip : List NodeId) (lead : Option Trivia) (ds : List TypeDecl) :
    mentions skip ((Imports.withFirstLead lead ds).map TypeDecl.outline)
      = mentions skip (ds.map TypeDecl.outline) :=
  Imports.collect_withFirstLead (fun _ => rfl) lead ds

theorem typesAll_withFirstLead (lead : Option Trivia) (ds : List TypeDecl) :
    typesAll ((Imports.withFirstLead lead ds).map TypeDecl.outline)
      = typesAll (ds.map TypeDecl.outline) := by
  cases ds with
  | nil => rfl
  | cons d ds =>
    rw [Imports.withFirstLead, List.map_cons, typesAll, TypeDecl.types_outline, List.map_cons,
      typesAll, TypeDecl.types_outline]

/-- What a leaf recipe that changed `m` to `out` did to the scope: only the imports of single types
differ, by a plan that fits the demand of the pass. -/
structure LeafRun (index : TypeIndex) (m : Module) (s : PassState) (changed out : Module)
    (plan : Imports.Plan) : Prop where
  fits : (Imports.Demand.ofPass changed (.ofModule m index) s).Fits plan
  planned : ∀ full ∈ plan.additions.toList, ∃ new ∈ s.additions.toList,
    (SymbolTable.ofModule m index).qualify new = .type full
  settled : ∀ new ∈ s.additions.toList, ∃ full,
    (SymbolTable.ofModule m index).qualify new = .type full ∧
      ((Imports.Demand.ofPass changed (.ofModule m index) s).Unneeded full
        ∨ full ∈ plan.additions.toList)
  /-- Every type that is asked for is named in the code. -/
  named : ∀ new ∈ s.additions.toList, Name.simple new ∈ changed.usedNames.toList
  imports : changed.imports = m.imports
  types : ∃ lead, out.types = Imports.withFirstLead lead changed.types
  edited : Imports.Edited ((Imports.Demand.ofPass changed (.ofModule m index) s).kept plan)
    plan.additions.toList out.imports
  locals : (SymbolTable.ofModule out index).locals = (SymbolTable.ofModule m index).locals
  package : (SymbolTable.ofModule out index).package = (SymbolTable.ofModule m index).package
  used : ∀ skip h, h ∈ (out.usedNamesExcept skip).toList ↔ h ∈ (changed.usedNamesExcept skip).toList

/-- **A leaf recipe touches only the imports of single types.** -/
theorem Recipe.run_spec {r : Recipe}
    {pass : SymbolTable → Module → Pass PassState (Option Module)} (hr : r.pass? = some pass)
    {index : TypeIndex} {m changed : Module} {s : PassState}
    (hrun : pass (.ofModule m index) m (.start m) = some (some changed, s)) {a : Applied}
    (happly : r.apply index m = some (.ok a)) :
    ∃ plan, a.report.importsAdded = plan.additions.toList
      ∧ LeafRun index m s changed a.module plan := by
  rw [apply_of_pass? hr, applyPass, hrun] at happly
  dsimp only [Option.map_some] at happly
  split at happly
  case h_1 => cases happly
  case h_2 out changes hreconcile =>
    cases happly
    obtain ⟨types, hout, hasks, hnest⟩ := pass_changes hr hrun
    rw [Option.getD_some] at hout
    obtain ⟨plan, hplan, hadded, hpackage, ⟨lead, htypes⟩, hedited⟩ :=
      Module.reconcile_spec hreconcile
    obtain ⟨hfits, hplanned, hsettled⟩ := Imports.Demand.plan_cases hplan
    have hchanged : changed.types = types := by rw [hout]
    have hpackage' : out.package = m.package := by rw [hpackage, hout]
    have hdeclared : out.declaredTypes = m.declaredTypes := by
      refine declaredTypes_congr hpackage' ?_
      rw [htypes, typesAll_withFirstLead, hchanged, hnest]
    refine ⟨plan, hadded, hfits, hplanned, hsettled, fun new hnew => ?_, by rw [hout],
      ⟨lead, htypes⟩, hedited, ?_, ?_, ?_⟩
    · rcases hasks new hnew with hnew | ⟨p, _, rfl, hmention⟩
      · cases hnew
      · refine mem_usedNamesExcept.mpr ⟨Name.ne_of_isIdentifier (Name.isIdentifier_simple p.valid),
          Name.simple p.spelled, ?_, Name.head_of_dotless (Name.dotless_simple _)⟩
        rw [hchanged]
        exact hmention
    · simp only [SymbolTable.ofModule, hdeclared]
    · simp only [SymbolTable.ofModule, Module.packageName?, hpackage']
    · intro skip h
      rw [mem_usedNamesExcept, mem_usedNamesExcept, htypes, mentions_withFirstLead]

end Migration
