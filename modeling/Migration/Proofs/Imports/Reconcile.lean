import Migration.Proofs.Imports.Edit
import Migration.Proofs.Traversal.Walk
import Mathlib.Data.List.Perm.Basic

/-!
# Imports brought in line

`Demand.plan_cases` says what a plan can hold, and `reconcile_spec` what is left of the imports: the
unmarked ones in their order, with the planned ones somewhere between them. Two consequences are all
that scoping needs. A simple name for which nothing is planned and none of whose imports goes is
imported as before (`importedAs_eq`), and in any case it is imported as what it was imported as and
kept, or as what was planned (`mem_importedAs`).
-/

namespace Migration

namespace Imports

/-! ### Carrying out -/

theorem Placement.exists_add (eol : String) (hasPackage : Bool) (p : Placement) (name : String) :
    ∃ as bs, p.imports.map Import.bare = as ++ bs
      ∧ (p.add eol hasPackage name).imports.map Import.bare
        = as ++ Import.single p.nextId "" name :: bs := by
  obtain ⟨imports, leftover, firstLead, nextId⟩ := p
  cases imports with
  | cons i is => exact exists_insertSorted eol (Import.single nextId "" name) (i :: is)
  | nil =>
    refine ⟨[], [], rfl, ?_⟩
    cases leftover with
    | some lead => rfl
    | none =>
      cases hasPackage with
      | true => rfl
      | false => cases firstLead <;> rfl

/-- The new imports stand between the old ones, which keep their order. -/
theorem exists_foldl_add (eol : String) (hasPackage : Bool) (names : List String) (p : Placement) :
    ∃ added : List Import, added.map (·.name) = names
      ∧ (∀ i ∈ added, ∃ id, i = Import.single id "" i.name)
      ∧ (p.imports.map Import.bare).Sublist
        ((names.foldl (Placement.add eol hasPackage) p).imports.map Import.bare)
      ∧ ((names.foldl (Placement.add eol hasPackage) p).imports.map Import.bare).Perm
        (added ++ p.imports.map Import.bare) := by
  induction names generalizing p with
  | nil => exact ⟨[], rfl, List.forall_mem_nil _, List.Sublist.refl _, List.Perm.refl _⟩
  | cons name names ih =>
    obtain ⟨added, hnames, hsingle, hsub, hperm⟩ := ih (p.add eol hasPackage name)
    obtain ⟨as, bs, hbefore, hafter⟩ := Placement.exists_add eol hasPackage p name
    refine ⟨Import.single p.nextId "" name :: added, by rw [List.map_cons, hnames]; rfl, ?_, ?_, ?_⟩
    · intro i hi
      rcases List.mem_cons.mp hi with rfl | hi
      · exact ⟨p.nextId, rfl⟩
      · exact hsingle i hi
    · refine List.Sublist.trans ?_ hsub
      rw [hbefore, hafter]
      exact (List.sublist_cons_self _ bs).append_left as
    · refine hperm.trans ?_
      rw [hbefore, hafter, ← List.append_assoc, List.cons_append, ← List.append_assoc added]
      exact List.perm_middle

theorem settle_imports (hasPackage : Bool) (p : Placement) :
    (p.settle hasPackage).imports = p.imports := by
  unfold Placement.settle
  split
  · split <;> rfl
  · rfl

theorem withFirstLead_self (ds : List TypeDecl) : withFirstLead none ds = ds := by
  cases ds with
  | nil => rfl
  | cons d ds =>
    obtain ⟨_, _, _, _, _, _, _, _, _, _⟩ := d
    rfl

/-- What is collected at the nodes below the declarations of types does not see the trivia in front of
the first one. -/
theorem collect_withFirstLead {α : Type} {f : Node → Option α} (hf : ∀ d, f (.typeDecl d) = none)
    (lead : Option Trivia) (ds : List TypeDecl) :
    Outline.collect f ((withFirstLead lead ds).map TypeDecl.outline)
      = Outline.collect f (ds.map TypeDecl.outline) := by
  cases ds with
  | nil => rfl
  | cons d ds =>
    rw [withFirstLead, List.map_cons, Outline.collect_cons, Outline.collect_typeDecl, hf, List.map_cons,
      Outline.collect_cons, Outline.collect_typeDecl, hf]

/-! ### Planning -/

variable {d : Demand}

/-- No import of the type is needed, or none can be. -/
def Demand.Unneeded (d : Demand) (full : String) : Prop :=
  d.isSatisfied full = true ∨ (d.clash? full = none ∧ d.isOnDemand full = true)

/-- An import of the type is planned, in the place of another one where there is a clash. -/
def Demand.Planned (d : Demand) (p : Plan) (full : String) : Prop :=
  full ∈ p.additions.toList ∧ d.isSatisfied full = false ∧
    ((d.clash? full = none ∧ d.isOnDemand full = false) ∨
      ∃ existing k, d.clash? full = some (existing, k) ∧ k ∈ p.replaced
        ∧ d.untouched.contains (Name.simple full) = false)

theorem Demand.Planned.not_mem_typeImports {d : Demand} {p : Plan} {full : String}
    (h : d.Planned p full) : ∀ i ∈ d.module.typeImports, i.name ≠ full := by
  have hsatisfied := h.2.1
  rw [Demand.isSatisfied, Bool.or_eq_false_iff, List.any_eq_false] at hsatisfied
  exact fun i hi hname => hsatisfied.2 i hi (beq_iff_eq.mpr hname)

theorem Demand.isSingleType_of_isGivenUp {d : Demand} {i : Import} (h : d.isGivenUp i = true) :
    i.isSingleType = true := by
  obtain ⟨name, _, hname⟩ := List.any_eq_true.mp h
  exact (Bool.and_eq_true_iff.mp hname).1

/-- **What asking for one more type does to a plan.** -/
theorem Demand.request_cases {p p' : Plan} {name : String} (h : d.request p name = .ok p') :
    ∃ full, d.symbols.qualify name = .type full ∧
      ((p' = p ∧ d.Unneeded full) ∨
        (d.isSatisfied full = false ∧ p'.additions = p.additions.insert full ∧
          ((d.clash? full = none ∧ d.isOnDemand full = false ∧ p'.replaced = p.replaced) ∨
            ∃ existing k, d.clash? full = some (existing, k) ∧ p'.replaced = k :: p.replaced
              ∧ d.isGivenUp existing = true ∧ d.untouched.contains (Name.simple full) = false))) := by
  rw [request, fullName] at h
  split at h
  case h_2 => cases h
  case h_3 => cases h
  case h_1 full hfull =>
    refine ⟨full, hfull, ?_⟩
    change (if d.isSatisfied full = true then _ else _) = _ at h
    split at h
    case isTrue hsat =>
      cases h
      exact .inl ⟨rfl, .inl hsat⟩
    case isFalse hsat =>
      rw [Bool.not_eq_true] at hsat
      split at h
      case h_1 existing k hclash =>
        split at h
        case isFalse => cases h
        case isTrue hfree =>
          cases h
          rw [Bool.and_eq_true, Bool.not_eq_true'] at hfree
          exact .inr ⟨hsat, rfl, .inr ⟨existing, k, hclash, rfl, hfree⟩⟩
      case h_2 hclash =>
        split at h
        case isTrue hdemand =>
          cases h
          exact .inl ⟨rfl, .inr ⟨hclash, hdemand⟩⟩
        case isFalse hdemand =>
          cases h
          exact .inr ⟨hsat, rfl, .inl ⟨hclash, Bool.eq_false_iff.mpr hdemand, rfl⟩⟩

/-- What is known of a plan after some types were asked for: all it holds is planned for a reason,
and every type asked for is visible or planned. -/
structure Demand.Fits (d : Demand) (p : Plan) : Prop where
  additions : ∀ full ∈ p.additions.toList, d.Planned p full
  replaced : ∀ k ∈ p.replaced, ∃ full existing, full ∈ p.additions.toList
    ∧ d.clash? full = some (existing, k) ∧ d.untouched.contains (Name.simple full) = false

theorem Demand.Planned.mono {p p' : Plan} {full : String} (h : d.Planned p full)
    (hadditions : ∀ x ∈ p.additions.toList, x ∈ p'.additions.toList)
    (hreplaced : ∀ k ∈ p.replaced, k ∈ p'.replaced) : d.Planned p' full := by
  obtain ⟨hmem, hsat, hcase⟩ := h
  refine ⟨hadditions full hmem, hsat, ?_⟩
  rcases hcase with hnone | ⟨existing, k, hclash, hk, hfree⟩
  · exact .inl hnone
  · exact .inr ⟨existing, k, hclash, hreplaced k hk, hfree⟩

theorem Demand.Fits.request {p p' : Plan} {name : String} (hp : d.Fits p)
    (h : d.request p name = .ok p') :
    d.Fits p' ∧ (∀ x ∈ p.additions.toList, x ∈ p'.additions.toList) ∧
      (∀ x ∈ p'.additions.toList, x ∈ p.additions.toList ∨ d.symbols.qualify name = .type x) ∧
      ∃ full, d.symbols.qualify name = .type full ∧
        (d.Unneeded full ∨ full ∈ p'.additions.toList) := by
  obtain ⟨full, hfull, ⟨rfl, hun⟩ | ⟨hsat, hadd, hcase⟩⟩ := request_cases h
  · exact ⟨hp, fun _ hx => hx, fun _ hx => .inl hx, full, hfull, .inl hun⟩
  · have hmem : ∀ x, x ∈ p'.additions.toList ↔ x = full ∨ x ∈ p.additions.toList := by
      intro x
      rw [hadd, NameSet.mem_insert]
    have hmono : ∀ x ∈ p.additions.toList, x ∈ p'.additions.toList :=
      fun x hx => (hmem x).mpr (.inr hx)
    have hreplaced : ∀ k ∈ p.replaced, k ∈ p'.replaced := by
      rcases hcase with ⟨_, _, hrep⟩ | ⟨_, k, _, hrep, _, _⟩
      · rw [hrep]
        exact fun _ hk => hk
      · rw [hrep]
        exact fun _ hk => List.mem_cons_of_mem _ hk
    have hnew : ∀ x ∈ p'.additions.toList,
        x ∈ p.additions.toList ∨ d.symbols.qualify name = .type x := by
      intro x hx
      rcases (hmem x).mp hx with rfl | hx
      · exact .inr hfull
      · exact .inl hx
    refine ⟨⟨fun x hx => ?_, fun k hk => ?_⟩, hmono, hnew, full, hfull,
      .inr ((hmem full).mpr (.inl rfl))⟩
    · rcases (hmem x).mp hx with rfl | hx
      · refine ⟨(hmem x).mpr (.inl rfl), hsat, ?_⟩
        rcases hcase with ⟨hclash, hdemand, _⟩ | ⟨existing, k, hclash, hrep, _, hfree⟩
        · exact .inl ⟨hclash, hdemand⟩
        · exact .inr ⟨existing, k, hclash, by rw [hrep]; exact List.mem_cons_self, hfree⟩
      · exact (hp.additions x hx).mono hmono hreplaced
    · have hold : k ∈ p.replaced → ∃ full existing, full ∈ p'.additions.toList
          ∧ d.clash? full = some (existing, k)
          ∧ d.untouched.contains (Name.simple full) = false := by
        intro hk
        obtain ⟨other, existing, hother, hclash, hfree⟩ := hp.replaced k hk
        exact ⟨other, existing, hmono other hother, hclash, hfree⟩
      rcases hcase with ⟨_, _, hrep⟩ | ⟨existing, l, hclash, hrep, _, hfree⟩
      · rw [hrep] at hk
        exact hold hk
      · rw [hrep] at hk
        rcases List.mem_cons.mp hk with rfl | hk
        · exact ⟨full, existing, (hmem full).mpr (.inl rfl), hclash, hfree⟩
        · exact hold hk

theorem Demand.clash?_eq_some {full : String} {existing : Import} {k : Nat}
    (h : d.clash? full = some (existing, k)) :
    d.module.imports[k]? = some existing ∧ Name.simple existing.name = Name.simple full := by
  rw [clash?] at h
  have hmem := List.mem_of_find?_eq_some h
  have htest := List.find?_some h
  simp only [Bool.and_eq_true, beq_iff_eq] at htest
  exact ⟨List.mem_zipIdx_iff_getElem?.mp hmem, htest.1.2⟩

/-- What holds of the empty plan, and still after one more type was asked for, holds of every plan. -/
theorem Demand.plan_induction {motive : Plan → Prop} (hempty : motive ⟨NameSet.empty, []⟩)
    (hrequest : ∀ p name p', motive p → d.request p name = .ok p' → motive p') {names : List String}
    {p : Plan} (h : d.plan names = .ok p) : motive p := by
  have hrun : ∀ (names : List String) (p₀ : Plan), motive p₀ → names.foldlM d.request p₀ = .ok p →
      motive p := by
    intro names
    induction names with
    | nil =>
      intro p₀ hp₀ h
      cases h
      exact hp₀
    | cons name names ih =>
      intro p₀ hp₀ h
      rw [List.foldlM_cons] at h
      cases hreq : d.request p₀ name with
      | error e =>
        rw [hreq] at h
        cases h
      | ok p₁ =>
        rw [hreq] at h
        exact ih p₁ (hrequest p₀ name p₁ hp₀ hreq) h
  exact hrun names _ hempty h

/-- Only imports that are given up are replaced. -/
theorem Demand.isGivenUp_of_replaced {names : List String} {p : Plan} (h : d.plan names = .ok p) :
    ∀ k ∈ p.replaced, ∃ i, d.module.imports[k]? = some i ∧ d.isGivenUp i = true := by
  refine plan_induction (motive := fun p => ∀ k ∈ p.replaced, ∃ i, d.module.imports[k]? = some i ∧
    d.isGivenUp i = true) (List.forall_mem_nil _) (fun p name p' hp hreq => ?_) h
  obtain ⟨full, _, ⟨rfl, _⟩ | ⟨_, _, ⟨_, _, hrep⟩ | ⟨i, k, hclash, hrep, hgiven, _⟩⟩⟩ := request_cases hreq
  · exact hp
  · rwa [hrep]
  · rw [hrep]
    exact List.forall_mem_cons.mpr ⟨⟨i, (clash?_eq_some hclash).1, hgiven⟩, hp⟩

/-- **What a plan holds**: types that were asked for, and all of these that are not visible. -/
theorem Demand.plan_cases {names : List String} {p : Plan} (h : d.plan names = .ok p) :
    d.Fits p ∧
      (∀ full ∈ p.additions.toList, ∃ name ∈ names, d.symbols.qualify name = .type full) ∧
      ∀ name ∈ names, ∃ full, d.symbols.qualify name = .type full ∧
        (d.Unneeded full ∨ full ∈ p.additions.toList) := by
  have hrun : ∀ (names : List String) (p₀ : Plan), d.Fits p₀ → names.foldlM d.request p₀ = .ok p →
      d.Fits p ∧ (∀ x ∈ p₀.additions.toList, x ∈ p.additions.toList) ∧
        (∀ x ∈ p.additions.toList, x ∈ p₀.additions.toList ∨
          ∃ name ∈ names, d.symbols.qualify name = .type x) ∧
        ∀ name ∈ names, ∃ full, d.symbols.qualify name = .type full ∧
          (d.Unneeded full ∨ full ∈ p.additions.toList) := by
    intro names
    induction names with
    | nil =>
      intro p₀ hp₀ h
      cases h
      exact ⟨hp₀, fun _ hx => hx, fun _ hx => .inl hx, List.forall_mem_nil _⟩
    | cons name names ih =>
      intro p₀ hp₀ h
      rw [List.foldlM_cons] at h
      cases hreq : d.request p₀ name with
      | error e =>
        rw [hreq] at h
        cases h
      | ok p₁ =>
        rw [hreq] at h
        obtain ⟨hp₁, hmono, hnew, full, hfull, hcase⟩ := hp₀.request hreq
        obtain ⟨hp, hmono', hnew', hnames⟩ := ih p₁ hp₁ h
        refine ⟨hp, fun x hx => hmono' x (hmono x hx), fun x hx => ?_, fun n hn => ?_⟩
        · rcases hnew' x hx with hx | ⟨n, hn, hx⟩
          · exact (hnew x hx).imp id fun hx => ⟨name, List.mem_cons_self, hx⟩
          · exact .inr ⟨n, List.mem_cons_of_mem _ hn, hx⟩
        · rcases List.mem_cons.mp hn with rfl | hn
          · exact ⟨full, hfull, hcase.imp id (hmono' full)⟩
          · exact hnames n hn
  have hempty : d.Fits ⟨NameSet.empty, []⟩ :=
    ⟨List.forall_mem_nil _, List.forall_mem_nil _⟩
  obtain ⟨hp, _, hnew, hnames⟩ := hrun names _ hempty h
  exact ⟨hp, fun x hx => (hnew x hx).resolve_left List.not_mem_nil, hnames⟩

/-! ### What is left of the imports -/

/-- The names of the imports that satisfy a test. -/
def namesWhere (p : Import → Bool) (imports : List Import) : List String :=
  (imports.filter p).map (·.name)

/-- What a simple name is imported as; the last one counts. -/
def importedAs (simple : String) (imports : List Import) : List String :=
  namesWhere (fun i => i.isSingleType && Name.simple i.name == simple) imports

/-- The packages imported on demand. -/
def onDemandOf (imports : List Import) : List String :=
  namesWhere (fun i => !i.isStatic && i.wildcard) imports

theorem namesWhere_bare {p : Import → Bool} (hp : ∀ i, p i.bare = p i) (imports : List Import) :
    namesWhere p (imports.map Import.bare) = namesWhere p imports := by
  rw [namesWhere, List.filter_map, List.map_map, namesWhere]
  congr 1
  exact List.filter_congr fun i _ => hp i

theorem mem_importedAs {simple name : String} {imports : List Import} :
    name ∈ importedAs simple imports ↔
      ∃ i ∈ imports.filter Import.isSingleType, Name.simple i.name = simple ∧ i.name = name := by
  simp only [importedAs, namesWhere, List.mem_map, List.mem_filter, Bool.and_eq_true, beq_iff_eq,
    and_assoc]

/-- The imports are those of `old`, in their order, and those of `names` somewhere between them, with
any trivia in front of each. -/
def Edited (old : List Import) (names : List String) (imports : List Import) : Prop :=
  ∃ added : List Import, added.map (·.name) = names
    ∧ (∀ i ∈ added, ∃ id, i = Import.single id "" i.name)
    ∧ (old.map Import.bare).Sublist (imports.map Import.bare)
    ∧ (imports.map Import.bare).Perm (added ++ old.map Import.bare)

variable {old imports : List Import} {names : List String}

theorem Edited.namesWhere_eq (h : Edited old names imports) {p : Import → Bool}
    (hp : ∀ i, p i.bare = p i) (hnew : ∀ id, ∀ name ∈ names, p (Import.single id "" name) = false) :
    namesWhere p imports = namesWhere p old := by
  obtain ⟨added, hnames, hsingle, hsub, hperm⟩ := h
  have hnone : added.filter p = [] := by
    rw [List.filter_eq_nil_iff]
    intro i hi
    obtain ⟨id, heq⟩ := hsingle i hi
    rw [heq, hnew id i.name (by rw [← hnames]; exact List.mem_map_of_mem hi)]
    exact Bool.false_ne_true
  have hlength := (hperm.filter p).length_eq
  rw [List.filter_append, hnone, List.nil_append] at hlength
  rw [← namesWhere_bare hp imports, ← namesWhere_bare hp old, namesWhere, namesWhere,
    (hsub.filter p).eq_of_length hlength.symm]

theorem Edited.onDemandOf_eq (h : Edited old names imports) :
    onDemandOf imports = onDemandOf old :=
  h.namesWhere_eq (fun _ => rfl) fun _ _ _ => rfl

/-- A simple name under which nothing is added is imported as before. -/
theorem Edited.importedAs_eq (h : Edited old names imports) {simple : String}
    (hnew : ∀ name ∈ names, Name.simple name ≠ simple) :
    importedAs simple imports = importedAs simple old :=
  h.namesWhere_eq (fun _ => rfl) fun _ name hname => beq_false_of_ne (hnew name hname)

theorem Edited.mem_importedAs (h : Edited old names imports) {simple name : String} :
    name ∈ importedAs simple imports ↔
      name ∈ importedAs simple old ∨ name ∈ names ∧ Name.simple name = simple := by
  obtain ⟨added, hnames, hsingle, _, hperm⟩ := h
  have hbare (is : List Import) :
      importedAs simple (is.map Import.bare) = importedAs simple is :=
    namesWhere_bare (fun _ => rfl) is
  have hmem : name ∈ importedAs simple imports ↔
      name ∈ importedAs simple (added ++ old.map Import.bare) := by
    rw [← hbare imports]
    exact ((hperm.filter _).map _).mem_iff
  have hadded : name ∈ importedAs simple added ↔ name ∈ names ∧ Name.simple name = simple := by
    rw [importedAs, namesWhere, List.mem_map, ← hnames, List.mem_map]
    constructor
    · rintro ⟨i, hi, rfl⟩
      rw [List.mem_filter, Bool.and_eq_true, beq_iff_eq] at hi
      exact ⟨⟨i, hi.1, rfl⟩, hi.2.2⟩
    · rintro ⟨⟨i, hi, rfl⟩, hsimple⟩
      refine ⟨i, List.mem_filter.mpr ⟨hi, ?_⟩, rfl⟩
      obtain ⟨id, heq⟩ := hsingle i hi
      rw [Bool.and_eq_true, beq_iff_eq]
      exact ⟨by rw [heq]; rfl, hsimple⟩
  rw [hmem, importedAs, namesWhere, List.filter_append, List.map_append, List.mem_append, or_comm]
  exact or_congr (by rw [← hbare old]; rfl) hadded

/-- The imports that a plan keeps. -/
def Demand.kept (d : Demand) (p : Plan) : List Import := ((d.marked p).filter (!·.2)).map (·.1)

theorem edited_carryOut (m : Module) (p : Plan) (names : List String) (nextId : NodeId) :
    Edited (d.kept p) names (carryOut m (d.marked p) names nextId).imports := by
  obtain ⟨added, hnames, hsingle, hsub, hperm⟩ := exists_foldl_add (lineBreak m) m.package.isSome
    names ⟨(keep false none (d.marked p)).1, (keep false none (d.marked p)).2,
      m.types.head?.map (·.lead), nextId⟩
  have hkept : (keep false none (d.marked p)).1.map Import.bare = (d.kept p).map Import.bare := by
    rw [map_bare_keep, Demand.kept, List.map_map]
    rfl
  have hout : (carryOut m (d.marked p) names nextId).imports
      = (names.foldl (Placement.add (lineBreak m) m.package.isSome)
          ⟨(keep false none (d.marked p)).1, (keep false none (d.marked p)).2,
            m.types.head?.map (·.lead), nextId⟩).imports :=
    settle_imports _ _
  rw [hkept] at hsub hperm
  rw [hout]
  exact ⟨added, hnames, hsingle, hsub, hperm⟩

theorem Demand.marked_map_fst (p : Plan) : (d.marked p).map (·.1) = d.module.imports := by
  rw [marked, List.map_map]
  exact List.zipIdx_map_fst 0 d.module.imports

theorem Demand.kept_of_none (p : Plan) (h : (d.marked p).filter (·.2) = []) :
    d.kept p = d.module.imports := by
  have hall : (d.marked p).filter (!·.2) = d.marked p := by
    rw [List.filter_eq_self]
    intro q hq
    rw [Bool.not_eq_true', ← Bool.not_eq_true]
    exact List.filter_eq_nil_iff.mp h q hq
  rw [Demand.kept, hall, marked_map_fst]

theorem Demand.eq_of_clash?_eq_none {full name : String} (h : d.clash? full = none)
    (hname : name ∈ importedAs (Name.simple full) d.module.imports) : name = full := by
  obtain ⟨i, hi, rfl⟩ := List.mem_map.mp hname
  obtain ⟨hi, htest⟩ := List.mem_filter.mp hi
  obtain ⟨k, hk⟩ := List.mem_iff_getElem?.mp hi
  have hnone := List.find?_eq_none.mp h (i, k) (List.mem_zipIdx_iff_getElem?.mpr hk)
  dsimp only at hnone
  rw [htest, Bool.true_and, bne_iff_ne, ne_eq, not_not] at hnone
  exact hnone

/-- The import at position `k` is removed. -/
def Demand.isRemoved (d : Demand) (p : Plan) (i : Import) (k : Nat) : Bool :=
  d.isGivenUp i && (p.replaced.contains k || !d.used.contains (Name.simple i.name))

theorem Demand.kept_eq (p : Plan) : d.kept p
    = (d.module.imports.zipIdx.filter fun q => !d.isRemoved p q.1 q.2).map Prod.fst := by
  rw [kept, marked, List.filter_map, List.map_map]
  rfl

theorem Demand.mem_kept_iff {p : Plan} {i : Import} :
    i ∈ d.kept p ↔ ∃ k, d.module.imports[k]? = some i ∧ d.isRemoved p i k = false := by
  simp only [kept_eq, List.mem_map, List.mem_filter, Prod.exists, List.mem_zipIdx_iff_getElem?,
    Bool.not_eq_true', exists_and_right, exists_eq_right]

theorem Demand.kept_sublist (p : Plan) : (d.kept p).Sublist d.module.imports := by
  rw [kept_eq]
  have hsub := (List.filter_sublist (p := fun q : Import × Nat => !d.isRemoved p q.1 q.2)
    (l := d.module.imports.zipIdx)).map Prod.fst
  rwa [List.zipIdx_map_fst] at hsub

theorem Demand.namesWhere_kept {p : Plan} {test : Import → Bool}
    (h : ∀ i k, d.module.imports[k]? = some i → test i = true → d.isRemoved p i k = false) :
    namesWhere test (d.kept p) = namesWhere test d.module.imports := by
  have hall : d.module.imports = d.module.imports.zipIdx.map Prod.fst :=
    (List.zipIdx_map_fst 0 d.module.imports).symm
  rw [namesWhere, namesWhere, kept_eq]
  conv_rhs => rw [hall]
  rw [List.filter_map, List.filter_map, List.filter_filter]
  congr 2
  refine List.filter_congr fun q hq => ?_
  obtain ⟨i, k⟩ := q
  cases htest : test i with
  | false => simp [htest]
  | true => simp [htest, h i k (List.mem_zipIdx_iff_getElem?.mp hq) htest]

theorem Demand.onDemandOf_kept (p : Plan) :
    onDemandOf (d.kept p) = onDemandOf d.module.imports := by
  refine namesWhere_kept fun i k _ htest => ?_
  have hsingle : i.isSingleType = false := by
    rw [Bool.and_eq_true, Bool.not_eq_true'] at htest
    rw [Import.isSingleType, htest.1, htest.2]
    rfl
  have hgiven : d.isGivenUp i = false :=
    Bool.eq_false_iff.mpr fun h => Bool.eq_false_iff.mp hsingle (isSingleType_of_isGivenUp h)
  rw [isRemoved, hgiven, Bool.false_and]

/-- A name that is used, and not taken over by a planned import, keeps what it is imported as. -/
theorem Demand.importedAs_kept {p : Plan} (hp : d.Fits p) {simple : String}
    (hused : d.used.contains simple = true)
    (hfree : ∀ full ∈ p.additions.toList, Name.simple full = simple →
      d.untouched.contains simple = true) :
    importedAs simple (d.kept p) = importedAs simple d.module.imports := by
  refine namesWhere_kept fun i k hk htest => ?_
  rw [Bool.and_eq_true, beq_iff_eq] at htest
  have hnot : p.replaced.contains k = false := by
    rw [← Bool.not_eq_true, List.contains_iff_mem]
    intro hmem
    obtain ⟨full, existing, hfull, hclash, htaken⟩ := hp.replaced k hmem
    obtain ⟨hex, hsimple⟩ := clash?_eq_some hclash
    rw [hk] at hex
    cases hex
    rw [htest.2] at hsimple
    rw [← hsimple, hfree full hfull hsimple.symm] at htaken
    cases htaken
  rw [isRemoved, hnot, htest.2, hused]
  exact Bool.and_false _

end Imports

/-- What bringing the imports in line comes to: nothing where nothing is planned or removed. -/
theorem Module.reconcile_cases {m out : Module} {symbols : SymbolTable} {s : PassState}
    {changes : ImportChanges} (h : m.reconcile symbols s = .ok (out, changes)) :
    ∃ plan, (Imports.Demand.ofPass m symbols s).plan s.additions.toList = .ok plan
      ∧ changes.added = plan.additions.toList
      ∧ ((plan.additions.toList = []
            ∧ (Imports.Demand.ofPass m symbols s).kept plan = m.imports
            ∧ out = m.raiseNextId s.nextId) ∨
          out = Imports.carryOut m ((Imports.Demand.ofPass m symbols s).marked plan)
            plan.additions.toList s.nextId) := by
  unfold reconcile at h
  dsimp only at h
  cases hplan : (Imports.Demand.ofPass m symbols s).plan s.additions.toList with
  | error e =>
    rw [hplan] at h
    cases h
  | ok plan =>
    rw [hplan] at h
    refine ⟨plan, rfl, ?_⟩
    change (if _ then _ else _) = Except.ok (out, changes) at h
    split at h
    case isFalse =>
      cases h
      exact ⟨rfl, .inr rfl⟩
    case isTrue hempty =>
      cases h
      rw [Bool.and_eq_true] at hempty
      have hadd : plan.additions.toList = [] := List.isEmpty_iff.mp hempty.1
      exact ⟨hadd.symm, .inl ⟨hadd, Imports.Demand.kept_of_none plan
        (List.map_eq_nil_iff.mp (List.isEmpty_iff.mp hempty.2)), rfl⟩⟩

/-- **What bringing the imports in line leaves of a module.** -/
theorem Module.reconcile_spec {m out : Module} {symbols : SymbolTable} {s : PassState}
    {changes : ImportChanges} (h : m.reconcile symbols s = .ok (out, changes)) :
    ∃ plan, (Imports.Demand.ofPass m symbols s).plan s.additions.toList = .ok plan
      ∧ changes.added = plan.additions.toList
      ∧ out.package = m.package ∧ (∃ lead, out.types = Imports.withFirstLead lead m.types)
      ∧ Imports.Edited ((Imports.Demand.ofPass m symbols s).kept plan) plan.additions.toList
        out.imports := by
  obtain ⟨plan, hplan, hadded, ⟨hadd, hkept, rfl⟩ | rfl⟩ := reconcile_cases h
  · refine ⟨plan, hplan, hadded, rfl, ⟨none, (Imports.withFirstLead_self _).symm⟩, ?_⟩
    rw [hadd, hkept]
    exact ⟨[], rfl, List.forall_mem_nil _, List.Sublist.refl _, List.Perm.refl _⟩
  · exact ⟨plan, hplan, hadded, rfl, ⟨_, rfl⟩, Imports.edited_carryOut m plan _ _⟩

end Migration
