import Migration.Proofs.Rule.Notes
import Migration.Proofs.Traversal.Nodes
import Migration.Proofs.Tree.Names

/-!
# Superclasses before and after a pass

A change of superclasses looks at the superclass of each class, nested ones included, and at nothing
else. So a pass is known by what it does to the list of all superclasses (`Module.superclasses`): a
relation of such lists that holds of single replacements holds of whole modules (`Threaded.pass`). Each
of them stands at a node of the module (`Module.superclasses_mem_preorder`).

`SupertypeChange.Spares` says which superclasses are left alone (`replace_eq_none_iff`). After a pass
every superclass is either one that was there before and is left alone, or has the new simple name
(`pass_retargets`).
-/

namespace Migration

open Outline (mentions preorderAll preorderAll_append)

/-! ### The superclasses of a module -/

mutual

/-- The superclasses of the classes in a member. -/
def Member.superclasses : Member → List TypeName
  | .field _ => []
  | .method _ => []
  | .type d => d.superclasses
termination_by structural m => m

/-- The superclass of a class, and those of the classes inside it. -/
def TypeDecl.superclasses : TypeDecl → List TypeName
  | ⟨id, lead, modifiers, kindLead, kind, name, typeParams, extending, implementing, body⟩ =>
    (TypeDecl.mk id lead modifiers kindLead kind name typeParams extending implementing
      body).superclass?.toList ++ body.superclasses
termination_by structural d => d

def TypeBody.superclasses : TypeBody → List TypeName
  | ⟨_, _, members, _⟩ => Member.superclassesAll members
termination_by structural b => b

def Member.superclassesAll : List Member → List TypeName
  | [] => []
  | m :: rest => m.superclasses ++ Member.superclassesAll rest
termination_by structural ms => ms

end

/-- The superclasses of all classes of a module, in source order. -/
def Module.superclasses (m : Module) : List TypeName := m.types.flatMap TypeDecl.superclasses

theorem TypeDecl.superclasses_eq (d : TypeDecl) :
    d.superclasses = d.superclass?.toList ++ Member.superclassesAll d.body.members := by
  obtain ⟨id, lead, modifiers, kindLead, kind, name, params, extending, implementing, body⟩ := d
  obtain ⟨bodyId, bodyLead, members, close⟩ := body
  rw [TypeDecl.superclasses, TypeBody.superclasses]

theorem superclasses_withFirstLead (lead : Option Trivia) (ds : List TypeDecl) :
    (Imports.withFirstLead lead ds).flatMap TypeDecl.superclasses
      = ds.flatMap TypeDecl.superclasses := by
  cases ds with
  | nil => rfl
  | cons d ds =>
    rw [Imports.withFirstLead, List.flatMap_cons, List.flatMap_cons, TypeDecl.superclasses_eq,
      d.superclasses_eq]
    rfl

/-! ### Superclasses are nodes -/

theorem TypeName.mem_preorder (t : TypeName) : .typeName t ∈ t.outline.preorder := by
  obtain ⟨_, _, _, args, _⟩ := t
  cases args with
  | none => exact List.mem_cons_self
  | some args => exact List.mem_cons_self

theorem TypeDecl.preorder_outline (d : TypeDecl) : d.outline.preorder = .typeDecl d ::
    (preorderAll (outlineHeader d.modifiers d.typeParams d.extending d.implementing)
      ++ preorderAll (Member.outlineAll d.body.members)) := by
  obtain ⟨id, lead, modifiers, kindLead, kind, name, params, extending, implementing, body⟩ := d
  obtain ⟨bodyId, bodyLead, members, close⟩ := body
  rw [TypeDecl.outline, Outline.preorder, preorderAll_append]
  rfl

theorem TypeDecl.superclass?_mem_preorder {d : TypeDecl} {t : TypeName} (h : d.superclass? = some t) :
    .typeName t ∈ d.outline.preorder := by
  obtain ⟨_, id, lead, after, hextending⟩ := superclass?_eq_some h
  have hclause : preorderAll (d.extending.toList.flatMap TypeClause.outlines) = t.outline.preorder := by
    rw [hextending, Option.toList_some, List.flatMap_singleton]
    exact List.append_nil _
  rw [TypeDecl.preorder_outline, outlineHeader, preorderAll_append, preorderAll_append, hclause]
  exact List.mem_cons_of_mem _ (List.mem_append_left _ (List.mem_append_left _
    (List.mem_append_right _ t.mem_preorder)))

mutual

theorem Member.superclasses_mem_preorder {t : TypeName} :
    (m : Member) → t ∈ m.superclasses → .typeName t ∈ m.outline.preorder
  | .field _, h => nomatch h
  | .method _, h => nomatch h
  | .type d, h => d.superclasses_mem_preorder h

theorem TypeDecl.superclasses_mem_preorder {t : TypeName} :
    (d : TypeDecl) → t ∈ d.superclasses → .typeName t ∈ d.outline.preorder
  | ⟨id, lead, modifiers, kindLead, kind, name, params, extending, implementing,
      ⟨bodyId, bodyLead, members, close⟩⟩, h => by
    rw [TypeDecl.superclasses_eq] at h
    rcases List.mem_append.mp h with h | h
    · exact TypeDecl.superclass?_mem_preorder (Option.mem_toList.mp h)
    · rw [TypeDecl.preorder_outline]
      exact List.mem_cons_of_mem _
        (List.mem_append_right _ (Member.superclassesAll_mem_preorder members h))

theorem Member.superclassesAll_mem_preorder {t : TypeName} :
    (ms : List Member) → t ∈ Member.superclassesAll ms →
      .typeName t ∈ preorderAll (Member.outlineAll ms)
  | [], h => nomatch h
  | m :: ms, h => by
    rcases List.mem_append.mp h with h | h
    · exact List.mem_append_left _ (m.superclasses_mem_preorder h)
    · exact List.mem_append_right _ (Member.superclassesAll_mem_preorder ms h)

end

/-- Every superclass stands at a node of the types of the module. -/
theorem Module.superclasses_mem_preorder {m : Module} {t : TypeName} (h : t ∈ m.superclasses) :
    .typeName t ∈ preorderAll (m.types.map TypeDecl.outline) := by
  obtain ⟨d, hd, ht⟩ := List.mem_flatMap.mp h
  obtain ⟨before, after, hsplit⟩ := List.append_of_mem hd
  rw [hsplit, List.map_append, preorderAll_append]
  exact List.mem_append_right _ (List.mem_append_left _ (d.superclasses_mem_preorder ht))

/-- The name of every superclass stands in the types of the module. -/
theorem Module.name_mem_mentions {m : Module} {t : TypeName} (h : t ∈ m.superclasses) :
    t.name ∈ mentions [] (m.types.map TypeDecl.outline) :=
  List.mem_filterMap.mpr ⟨_, m.superclasses_mem_preorder h, rfl⟩

theorem Module.wellFormed_superclass {m : Module} (hm : m.WellFormed) {t : TypeName}
    (h : t ∈ m.superclasses) : t.WellFormed :=
  Outline.allWellFormed_map (fun d hd => d.nodes_wellFormed (hm.types d hd)) _
    (m.superclasses_mem_preorder h)

/-! ### Which superclasses are left alone -/

/-- The superclass is the configured type, as far as that is known. -/
def TypePattern.matchesSuperclass (p : TypePattern) (symbols : SymbolTable) (t : TypeName) : Bool :=
  t.simpleName == p.simpleName &&
    match p.fullName?, superclassName? symbols t with
    | some expected, some actual => actual == expected
    | _, _ => true

theorem TypePattern.matchesSupertype_eq {p : TypePattern} {symbols : SymbolTable} {d : TypeDecl}
    {t : TypeName} (h : d.superclass? = some t) :
    p.matchesSupertype symbols d = p.matchesSuperclass symbols t := by
  rw [matchesSupertype, h]
  rfl

namespace SupertypeChange

variable {c : SupertypeChange} {symbols : SymbolTable}

/-- The superclass is left alone: it does not match, or its new spelling is not known. -/
def Spares (c : SupertypeChange) (symbols : SymbolTable) (t : TypeName) : Prop :=
  c.old.matchesSuperclass symbols t = false ∨
    t.isQualified = true ∧ c.new.qualifiedIn? symbols = none

theorem respell_eq_none_iff {t : TypeName} {s : PassState} :
    (c.respell symbols t s).1 = none ↔
      t.isQualified = true ∧ c.new.qualifiedIn? symbols = none := by
  rw [respell]
  by_cases hq : t.isQualified = true
  · rw [if_pos hq]
    cases c.new.qualifiedIn? symbols with
    | none => exact iff_of_true rfl ⟨hq, rfl⟩
    | some name =>
      exact iff_of_false (Option.some_ne_none name) fun h => Option.some_ne_none name h.2
  · rw [if_neg hq]
    exact iff_of_false (Option.some_ne_none _) fun h => hq h.1

/-- **When a declaration is left alone.** -/
theorem replace_eq_none_iff {d : TypeDecl} {s : PassState} :
    (c.replace symbols d s).1 = none ↔ ∀ t, d.superclass? = some t → c.Spares symbols t := by
  cases ht : d.superclass? with
  | none =>
    have hnone : c.old.matchesSupertype symbols d = false := by
      rw [TypePattern.matchesSupertype, ht]
    rw [replace, hnone]
    exact iff_of_true rfl fun _ h => absurd h.symm (Option.some_ne_none _)
  | some t =>
    have hspares : (∀ u, some t = some u → c.Spares symbols u) ↔ c.Spares symbols t :=
      ⟨fun h => h t rfl, fun h u hu => by cases hu; exact h⟩
    rw [hspares, replace, TypePattern.matchesSupertype_eq ht, Spares, ← respell_eq_none_iff (s := s)]
    cases c.old.matchesSuperclass symbols t with
    | false => exact iff_of_true rfl (.inl rfl)
    | true =>
      obtain ⟨hkind, id, lead, after, hextending⟩ := TypeDecl.superclass?_eq_some ht
      rw [if_pos rfl, ht]
      dsimp only
      rcases c.respell symbols t s with ⟨_ | name, s₁⟩
      · exact iff_of_true rfl (.inr rfl)
      · dsimp only
        rw [TypeDecl.withSuperclass?_eq hkind hextending]
        exact iff_of_false (Option.some_ne_none _) fun h =>
          h.elim Bool.false_ne_true.symm (Option.some_ne_none name)

/-! ### From single replacements to passes -/

/-- A change of lists of superclasses that is put together piece by piece, and that single replacements
keep to. -/
structure Threaded (c : SupertypeChange) (symbols : SymbolTable)
    (R : Change PassState (List TypeName)) : Prop where
  nil (s : PassState) : R s [] s []
  append {s s₁ s₂ : PassState} {ts us ts' us' : List TypeName} :
    R s ts s₁ us → R s₁ ts' s₂ us' → R s (ts ++ ts') s₂ (us ++ us')
  replace {s s₁ : PassState} {d : TypeDecl} {r : Option TypeDecl} :
    c.replace symbols d s = (r, s₁) →
      R s d.superclass?.toList s₁ (r.getD d).superclass?.toList

namespace Threaded

variable {R : Change PassState (List TypeName)} (hR : Threaded c symbols R)

include hR

theorem members {s s' : PassState} {xs ys : List Member}
    (h : Change.Each (Change.Member Change.Same Change.Same
      fun s d s' e => R s d.superclasses s' e.superclasses) s xs s' ys) :
    R s (Member.superclassesAll xs) s' (Member.superclassesAll ys) := by
  induction h with
  | nil => exact hR.nil _
  | cons hx _ ih =>
    refine hR.append ?_ ih
    cases hx with
    | field hv =>
      obtain ⟨rfl, rfl⟩ := hv.same
      exact hR.nil _
    | @method _ _ m body hbody =>
      generalize m.body = x at hbody
      cases hbody with
      | block hb =>
        obtain ⟨_, rfl⟩ := hb
        exact hR.nil _
      | absent => exact hR.nil _
    | type hd => exact hd

theorem respects : Pass.Respects (c.hooks symbols) Change.Same Change.Same
    fun s d s' e => R s d.superclasses s' e.superclasses := by
  refine respects_of_decl ?_
  intro s s₁ s₂ d r members hask hmembers
  have hsuper : TypeDecl.superclass? { r.getD d with body := { d.body with members } }
      = (r.getD d).superclass? := rfl
  rw [TypeDecl.superclasses_eq, TypeDecl.superclasses_eq, hsuper]
  exact hR.append (hR.replace hask) (hR.members hmembers)

theorem types {s s' : PassState} {xs ys : List TypeDecl}
    (h : Change.Each (fun s d s' e => R s d.superclasses s' e.superclasses) s xs s' ys) :
    R s (xs.flatMap TypeDecl.superclasses) s' (ys.flatMap TypeDecl.superclasses) := by
  induction h with
  | nil => exact hR.nil _
  | cons hd _ ih =>
    rw [List.flatMap_cons, List.flatMap_cons]
    exact hR.append hd ih

/-- **What single replacements keep to, a pass keeps to.** -/
theorem pass {m : Module} {s s' : PassState} {r : Option Module}
    (hrun : c.pass symbols m s = some (r, s')) : R s m.superclasses s' (r.getD m).superclasses := by
  obtain ⟨types, heach, hout⟩ := hR.respects.transform_each _ hrun
  rw [hout]
  exact hR.types heach

end Threaded

/-! ### Superclasses after a pass -/

/-- Every superclass is one of those before that are left alone, or has the new simple name. -/
def Retargets (c : SupertypeChange) (symbols : SymbolTable) : Change PassState (List TypeName) :=
  fun _ ts _ us => ∀ u ∈ us, u.simpleName = c.new.simpleName ∨ u ∈ ts ∧ c.Spares symbols u

theorem threaded_retargets
    (hfull : ∀ full, c.new.qualifiedIn? symbols = some full →
      Name.simple full = c.new.simpleName) : Threaded c symbols (c.Retargets symbols) where
  nil _ := List.forall_mem_nil _
  append h h' := by
    intro u hu
    rcases List.mem_append.mp hu with hu | hu
    · exact (h u hu).imp id fun ⟨hmem, hspares⟩ => ⟨List.mem_append_left _ hmem, hspares⟩
    · exact (h' u hu).imp id fun ⟨hmem, hspares⟩ => ⟨List.mem_append_right _ hmem, hspares⟩
  replace {s s₁ d r} hask := by
    intro u hu
    rcases replace_cases hask with
      ⟨rfl, _⟩ | ⟨id, lead, t, after, name, hkind, _, _, rfl, hcase⟩
    · have hspares := replace_eq_none_iff.mp (congrArg Prod.fst hask)
      exact .inr ⟨hu, hspares u (Option.mem_toList.mp hu)⟩
    · have hu' : u = t.withName name := by
        rw [Option.getD_some, TypeDecl.superclass?, hkind] at hu
        exact List.mem_singleton.mp hu
      rw [hu']
      rcases hcase with ⟨_, hname, _⟩ | ⟨_, rfl, _⟩
      · exact .inl (hfull name hname)
      · exact .inl (Name.simple_of_dotless (Name.dotless_simple _))

/-- **What superclasses there are after a pass.** -/
theorem pass_retargets
    (hfull : ∀ full, c.new.qualifiedIn? symbols = some full →
      Name.simple full = c.new.simpleName)
    {m : Module} {s s' : PassState} {r : Option Module}
    (hrun : c.pass symbols m s = some (r, s')) {u : TypeName} (hu : u ∈ (r.getD m).superclasses) :
    u.simpleName = c.new.simpleName ∨ u ∈ m.superclasses ∧ c.Spares symbols u :=
  (threaded_retargets hfull).pass hrun u hu

end SupertypeChange

end Migration
