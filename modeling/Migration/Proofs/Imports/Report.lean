import Migration.Grammar.Declarations
import Migration.Proofs.Imports.Joining
import Migration.Proofs.Token.Scanning

/-!
# The edit that is reported

Bringing the imports of a module in line reports the names of those that were added and of those that were
removed. This is the whole edit: nothing else becomes of the imports, and nothing but the trivia in front of
the first type can change elsewhere (`Module.reconcile_report`). The imports that are kept stay in their
groups, each new one joins one of these, and groups in order stay in order (`Module.reconcile_groups`).
-/

namespace Migration

open Imports (Demand bareGroups markedGroups unmarked markedOf fresh PutIn InOrder)

namespace Imports

/-- Where no import is marked, all are kept, with their trivia. -/
theorem keep_of_unmarked {marked : List (Import × Bool)} (h : ∀ q ∈ marked, q.2 = false) (started : Bool) :
    (keep started none marked).1 = marked.map (·.1) := by
  induction marked generalizing started with
  | nil => rfl
  | cons q marked ih =>
    obtain ⟨i, removed⟩ := q
    obtain ⟨hq, hrest⟩ := List.forall_mem_cons.mp h
    cases hq
    rw [keep, List.map_cons, ← ih hrest true]
    rfl

/-- Marked imports are grouped as they are without marks. -/
theorem map_markedGroups (marked : List (Import × Bool)) :
    (markedGroups marked).map (·.map (·.1)) = groups (marked.map (·.1)) := by
  rw [groups_eq_divide, divide_map]
  rfl

/-- Without marks, nothing of a group is left out. -/
theorem unmarked_of_kept (kept : List Import) :
    unmarked (markedGroups (kept.map fun i => (i, false))) = bareGroups kept := by
  rw [← groups_keep none, keep_of_unmarked (by simp), List.map_map]
  exact congrArg bareGroups (List.map_id _)

/-- **Removing and putting in, with all imports in their groups.** -/
theorem PutIn.exists_groups {next : NodeId} {marked : List (Import × Bool)} {names : List String}
    {ys : List Import} (h : PutIn next (keep false none marked).1 names ys) :
    ∃ after : List (List (Import × Bool)), after.map (·.map (·.1.bare)) = bareGroups ys ∧
      unmarked after = unmarked (markedGroups marked) ∧ (markedOf after).Perm (fresh next names) := by
  generalize hkept : (keep false none marked).1 = kept at h
  have hgroups : (markedGroups (kept.map fun i => (i, false))).map (·.map (·.1.bare)) = bareGroups kept := by
    have hmap := congrArg (List.map (List.map Import.bare)) (map_markedGroups (kept.map fun i => (i, false)))
    simpa [bareGroups, Function.comp_def] using hmap
  obtain ⟨after, hafter, hunmarked, hmarked⟩ := h.exists_marks hgroups
  refine ⟨after, hafter, ?_, ?_⟩
  · rw [hunmarked, unmarked_of_kept, ← hkept]
    exact groups_keep none marked
  · have hnone : markedOf (markedGroups (kept.map fun i => (i, false))) = [] := by
      rw [markedOf, markedGroups, flatten_divide, List.filter_eq_nil_iff.mpr (by simp)]
      rfl
    rwa [hnone, List.append_nil] at hmarked

/-- Removing imports leaves groups in order. -/
theorem inOrder_keep {marked : List (Import × Bool)} (h : ∀ g ∈ groups (marked.map (·.1)), InOrder g) :
    ∀ g ∈ bareGroups (keep false none marked).1, InOrder g := by
  intro g hg
  rw [bareGroups, groups_keep, unmarked, List.mem_filter, List.mem_map] at hg
  obtain ⟨⟨gm, hgm, rfl⟩, _⟩ := hg
  rw [← map_markedGroups, List.forall_mem_map] at h
  refine (inOrder_bare.mpr (h gm hgm)).sublist ?_
  rw [List.map_map]
  exact List.filter_sublist.map _

theorem Demand.unmarked_of_kept {d : Demand} {p : Plan} (h : d.kept p = d.module.imports) :
    ∀ q ∈ d.marked p, q.2 = false := by
  rw [← marked_map_fst p, kept] at h
  have hlength := congrArg List.length h
  rw [List.length_map, List.length_map, List.length_filter_eq_length_iff] at hlength
  exact fun q hq => (Bool.not_eq_true' _).mp (hlength q hq)

theorem Demand.isGivenUp_of_marked {d : Demand} {p : Plan} {q : Import × Bool}
    (hq : q ∈ d.marked p) (hremoved : q.2 = true) : q.1 ∈ d.module.imports ∧ d.isGivenUp q.1 = true := by
  rw [Demand.marked, List.mem_map] at hq
  obtain ⟨⟨i, k⟩, hi, rfl⟩ := hq
  exact ⟨List.fst_mem_of_mem_zipIdx hi, (Bool.and_eq_true_iff.mp hremoved).1⟩

end Imports

variable {m out : Module} {symbols : SymbolTable} {s : PassState} {changes : ImportChanges}

theorem Module.reconcile_removed (h : m.reconcile symbols s = .ok (out, changes)) {plan : Imports.Plan}
    (hplan : (Demand.ofPass m symbols s).plan s.additions.toList = .ok plan) :
    changes.removed = (((Demand.ofPass m symbols s).marked plan).filter (·.2)).map (·.1.name) := by
  unfold reconcile at h
  dsimp only at h
  rw [hplan] at h
  change (if _ then _ else _) = Except.ok (out, changes) at h
  split at h
  · next hempty =>
    cases h
    rw [Bool.and_eq_true] at hempty
    exact (List.isEmpty_iff.mp hempty.2).symm
  · cases h
    rfl

/-- All imports are removed exactly if all are marked. -/
theorem Module.reconcile_removed_eq_iff (h : m.reconcile symbols s = .ok (out, changes)) {plan : Imports.Plan}
    (hplan : (Demand.ofPass m symbols s).plan s.additions.toList = .ok plan) :
    changes.removed = m.imports.map (·.name) ↔
      ∀ q ∈ (Demand.ofPass m symbols s).marked plan, q.2 = true := by
  have hmarked : ((Demand.ofPass m symbols s).marked plan).map (·.1) = m.imports :=
    Demand.marked_map_fst plan
  rw [reconcile_removed h hplan, ← hmarked, List.map_map]
  refine ⟨fun hall => ?_, fun hall => ?_⟩
  · have hlength := congrArg List.length hall
    rw [List.length_map, List.length_map] at hlength
    exact List.length_filter_eq_length_iff.mp hlength
  · rw [List.filter_eq_self.mpr hall]
    rfl

/-- Bringing the imports in line removes the marked ones, and puts the new ones in. -/
theorem Module.putIn_reconcile (h : m.reconcile symbols s = .ok (out, changes)) :
    ∃ plan, (Demand.ofPass m symbols s).plan s.additions.toList = .ok plan ∧
      changes.added = plan.additions.toList ∧
      PutIn s.nextId (Imports.keep false none ((Demand.ofPass m symbols s).marked plan)).1 changes.added
        out.imports := by
  obtain ⟨plan, hplan, hadded, ⟨hnone, hkept, rfl⟩ | rfl⟩ := reconcile_cases h
  · refine ⟨plan, hplan, hadded, ?_⟩
    rw [Imports.keep_of_unmarked (Demand.unmarked_of_kept hkept), Demand.marked_map_fst, hadded, hnone]
    exact .done _ _
  · rw [hadded]
    exact ⟨plan, hplan, rfl, Imports.putIn_carryOut m _ _ _⟩

/-- **Which groups the imports stand in** when they have been brought in line. With the removed ones marked
before and the new ones marked after, what is unmarked stands in the same groups. Each new one joins the
group that shares most with its name, or is a group of its own in front of static imports. Groups that
were in order are in order afterwards. -/
theorem Module.reconcile_groups (h : m.reconcile symbols s = .ok (out, changes)) :
    ∃ before after : List (List (Import × Bool)),
      before.map (·.map (·.1)) = Imports.groups m.imports ∧
      after.map (·.map (·.1.bare)) = bareGroups out.imports ∧
      (before.flatten.filter (·.2)).map (·.1.name) = changes.removed ∧
      (markedOf after).Perm (fresh s.nextId changes.added) ∧
      unmarked after = unmarked before ∧
      (∃ kept, bareGroups kept = unmarked before ∧ PutIn s.nextId kept changes.added out.imports) ∧
      ((∀ g ∈ Imports.groups m.imports, InOrder g) → ∀ g ∈ Imports.groups out.imports, InOrder g) := by
  obtain ⟨plan, hplan, _, hputIn⟩ := putIn_reconcile h
  have hremoved := reconcile_removed h hplan
  have himports : ((Demand.ofPass m symbols s).marked plan).map (·.1) = m.imports := Demand.marked_map_fst plan
  generalize (Demand.ofPass m symbols s).marked plan = marked at *
  obtain ⟨after, hafter, hunmarked, hmarked⟩ := hputIn.exists_groups
  refine ⟨markedGroups marked, after, ?_, hafter, ?_, hmarked, hunmarked,
    ⟨_, Imports.groups_keep none marked, hputIn⟩, fun hordered g hg => ?_⟩
  · rw [Imports.map_markedGroups, himports]
  · rw [markedGroups, Imports.flatten_divide, hremoved]
  · rw [← himports] at hordered
    exact Imports.inOrder_bare.mp (hputIn.inOrder (Imports.inOrder_keep hordered) _ (List.mem_map_of_mem hg))

/-- The new import takes the place of the first of its group, which is removed. -/
theorem Module.reconcile_groups_ordered : ∃ m out changes kept,
    Module.parse "import a.A;\nimport a.C;\n\nimport z.Z;\nclass X extends B {C c; Z z;}" = .ok m ∧
    m.reconcile (.ofModule m (.ofList ["a.B"]))
      { PassState.start m with additions := .ofList ["a.B"], removals := .ofList ["a.A"] } =
        .ok (out, changes) ∧
    (bareGroups out.imports).map (·.map (·.name)) = [["a.B", "a.C"], ["z.Z"]] ∧
    PutIn m.nextId kept changes.added out.imports ∧ ∀ g ∈ Imports.groups out.imports, InOrder g := by
  have hcheck : (do
      let m ← (Module.parse
        "import a.A;\nimport a.C;\n\nimport z.Z;\nclass X extends B {C c; Z z;}").toOption
      let result ← (m.reconcile (.ofModule m (.ofList ["a.B"]))
        { PassState.start m with additions := .ofList ["a.B"], removals := .ofList ["a.A"] }).toOption
      return decide ((bareGroups result.1.imports).map (·.map (·.name)) = [["a.B", "a.C"], ["z.Z"]])
        && decide (∀ g ∈ Imports.groups m.imports, InOrder g) : Option Bool) = some true := by
    decide +kernel
  obtain ⟨m, hm, hcheck⟩ := Option.bind_eq_some_iff.mp hcheck
  obtain ⟨⟨out, changes⟩, hout, hcheck⟩ := Option.bind_eq_some_iff.mp hcheck
  simp only [pure, Option.some.injEq, Bool.and_eq_true, decide_eq_true_eq] at hcheck
  obtain ⟨hgroups, hordered⟩ := hcheck
  have hok := eq_ok_of_toOption hout
  obtain ⟨_, _, _, _, _, _, _, ⟨kept, _, hputIn⟩, hkeeps⟩ := reconcile_groups hok
  exact ⟨m, out, changes, kept, eq_ok_of_toOption hm, hok, hgroups, hputIn, hkeeps hordered⟩

/-- **The report on imports is the whole edit.** With the removed imports marked before and the new ones marked
after, what is unmarked is the same but for its trivia, and the marked ones are those of the report. -/
theorem Module.reconcile_report (h : m.reconcile symbols s = .ok (out, changes)) :
    ∃ before after : List (Import × Bool),
      before.map (·.1) = m.imports ∧ after.map (·.1) = out.imports.map Import.bare ∧
      (after.filter (!·.2)).map (·.1) = (before.filter (!·.2)).map (·.1.bare) ∧
      ((after.filter (·.2)).map (·.1)).Perm (fresh s.nextId changes.added) ∧
      changes.removed = (before.filter (·.2)).map (·.1.name) ∧
      changes.added.Pairwise (· < ·) ∧ (∀ i ∈ m.typeImports, i.name ∉ changes.added) ∧
      changes.removed.Disjoint changes.added ∧
      out.package = m.package ∧ out.eof = m.eof ∧ ∃ lead, out.types = Imports.withFirstLead lead m.types := by
  obtain ⟨plan, hplan, hadded, hputIn⟩ := putIn_reconcile h
  have hremoved := reconcile_removed h hplan
  obtain ⟨after, hafter, hunmarked, hmarked⟩ := hputIn.exists_groups
  have hnew : ∀ i ∈ m.typeImports, i.name ∉ changes.added := by
    intro i hi hname
    rw [hadded] at hname
    exact ((Demand.plan_cases hplan).1.additions _ hname).not_mem_typeImports i hi rfl
  refine ⟨(Demand.ofPass m symbols s).marked plan, after.flatten.map fun q => (q.1.bare, q.2),
    Demand.marked_map_fst plan, ?_, ?_, ?_, hremoved, ?_, hnew, ?_, ?_⟩
  · have hflatten := congrArg List.flatten hafter
    rw [← List.map_flatten, bareGroups, ← List.map_flatten, Imports.flatten_groups] at hflatten
    rw [List.map_map]
    exact hflatten
  · have hflatten := congrArg List.flatten hunmarked
    rw [Imports.flatten_unmarked, Imports.flatten_unmarked, markedGroups, Imports.flatten_divide] at hflatten
    rw [List.filter_map, List.map_map]
    exact hflatten
  · rw [List.filter_map, List.map_map]
    exact hmarked
  · rw [hadded]
    exact plan.additions.sorted
  · rw [hremoved]
    intro name hname
    obtain ⟨q, hq, rfl⟩ := List.mem_map.mp hname
    obtain ⟨hq, hgone⟩ := List.mem_filter.mp hq
    obtain ⟨hmem, hgiven⟩ := Demand.isGivenUp_of_marked hq hgone
    exact hnew q.1 (List.mem_filter.mpr ⟨hmem, Demand.isSingleType_of_isGivenUp hgiven⟩)
  · obtain ⟨_, _, _, ⟨_, _, rfl⟩ | rfl⟩ := reconcile_cases h
    · exact ⟨rfl, rfl, none, (Imports.withFirstLead_self _).symm⟩
    · exact ⟨rfl, rfl, _, rfl⟩

theorem Module.reconcile_report_replaced : ∃ m out changes,
    Module.parse "import a.A;\nimport a.C;\n\nimport z.Z;\nclass X extends B {C c; Z z;}" = .ok m ∧
    m.reconcile (.ofModule m (.ofList ["a.B"]))
      { PassState.start m with additions := .ofList ["a.B"], removals := .ofList ["a.A"] } =
        .ok (out, changes) ∧
    changes = ⟨["a.B"], ["a.A"]⟩ ∧ "a.B" ∉ m.typeImports.map (·.name) ∧
    ∃ after : List (Import × Bool), after.map (·.1) = out.imports.map Import.bare ∧
      (after.filter (·.2)).map (·.1) = [Import.single m.nextId "" "a.B"] := by
  have hcheck : (do
      let m ← (Module.parse
        "import a.A;\nimport a.C;\n\nimport z.Z;\nclass X extends B {C c; Z z;}").toOption
      let result ← (m.reconcile (.ofModule m (.ofList ["a.B"]))
        { PassState.start m with additions := .ofList ["a.B"], removals := .ofList ["a.A"] }).toOption
      return decide (result.2 = ⟨["a.B"], ["a.A"]⟩) : Option Bool) = some true := by
    decide +kernel
  obtain ⟨m, hm, hcheck⟩ := Option.bind_eq_some_iff.mp hcheck
  obtain ⟨⟨out, changes⟩, hout, hcheck⟩ := Option.bind_eq_some_iff.mp hcheck
  simp only [pure, Option.some.injEq, decide_eq_true_eq] at hcheck
  subst hcheck
  have hok := eq_ok_of_toOption hout
  obtain ⟨_, after, _, hafter, _, hmarked, _, _, hnew, _⟩ := reconcile_report hok
  refine ⟨m, out, _, eq_ok_of_toOption hm, hok, rfl, fun hmem => ?_, after, hafter,
    List.perm_singleton.mp hmarked⟩
  obtain ⟨i, hi, hname⟩ := List.mem_map.mp hmem
  exact hnew i hi (by simp [hname])

end Migration
