import Migration.Proofs.Grammar.RoundTrip
import Migration.Proofs.Scope.Declared
import Migration.Proofs.Scope.Lookup
import Migration.Proofs.Traversal.Declarations

/-!
# Which declared types are seen

Of the declared types with one simple name, the symbol table keeps the one that is declared first, and the
order is that of the source: what is inside a type stands in front of the next type of the module. So a
type of the module is hidden by a type of its name inside an earlier one, although it is the outer of the
two, and a hidden type does not count as local (`SymbolTable.declared_seen_iff`).
-/

namespace Migration

namespace SymbolTable

variable {m : Module} {index : TypeIndex}

/-- A full name is local if it is that of the first declared type of its simple name. -/
theorem isLocal_ofModule_iff {name : String} : (ofModule m index).isLocal name = true ↔
    ∃ d, m.declaredTypes.find? (·.simpleName == d.simpleName) = some d ∧ d.qualifiedName = name := by
  rw [isLocal, List.any_eq_true, ofModule]
  simp only [mem_firstByKey_iff, List.find?_map, Option.map_eq_some_iff, beq_iff_eq]
  constructor
  · rintro ⟨_, ⟨d, hd, rfl⟩, hname⟩
    exact ⟨d, hd, hname⟩
  · rintro ⟨d, hd, hname⟩
    exact ⟨(d.simpleName, d.qualifiedName), ⟨d, hd, rfl⟩, hname⟩

/-- A simple name means the first declared type that is called so. -/
theorem resolve_declared {simple : String} (hdotless : Name.Dotless simple) {d : DeclaredType}
    (h : m.declaredTypes.find? (·.simpleName == simple) = some d) :
    (ofModule m index).resolve simple = .type d.qualifiedName := by
  rw [resolve_of_dotless hdotless, resolveSimple_declared]
  rw [lookupFirst_locals, h]
  rfl

/-! ### Types of the module -/

section

variable {before after : List TypeDecl} {t : TypeDecl} (htypes : m.types = before ++ t :: after)

include htypes

theorem declaredTypes_split : m.declaredTypes = before.flatMap (TypeDecl.declared m.packageName? [])
    ++ t.entry m.packageName? [] :: (Member.declaredAll m.packageName? [t.name.name] t.body.members
      ++ after.flatMap (TypeDecl.declared m.packageName? [])) := by
  rw [Module.declaredTypes_eq, htypes, List.flatMap_append, List.flatMap_cons, TypeDecl.declared_eq]
  rfl

/-- Nothing in front of a type of the module has its full name, when full names are distinct. -/
theorem entry_ne_of_mem_before (hdistinct : (m.declaredTypes.map (·.qualifiedName)).Nodup)
    {e : DeclaredType} (he : e ∈ before.flatMap (TypeDecl.declared m.packageName? [])) :
    e.qualifiedName ≠ (t.entry m.packageName? []).qualifiedName := by
  rw [declaredTypes_split htypes, List.map_append, List.nodup_append] at hdistinct
  exact hdistinct.2.2 _ (List.mem_map_of_mem he) _ (List.mem_map_of_mem List.mem_cons_self)

/-- Two types of the module have different names, so only one inside another can have the name of `t`. -/
theorem simpleName_ne_before_iff (hdistinct : (m.declaredTypes.map (·.qualifiedName)).Nodup) :
    (∀ e ∈ before.flatMap (TypeDecl.declared m.packageName? []), e.simpleName ≠ t.name.name) ↔
      ∀ d ∈ before, ∀ e ∈ d.declared m.packageName? [], 0 < e.depth →
        e.simpleName ≠ t.name.name := by
  rw [List.forall_mem_flatMap]
  refine ⟨fun h d hd e he _ => h d hd e he, fun h d hd e he => ?_⟩
  rcases TypeDecl.eq_entry_or_deeper he with rfl | hdeeper
  · intro (hname : d.name.name = t.name.name)
    have hne := entry_ne_of_mem_before htypes hdistinct (List.mem_flatMap.mpr ⟨d, hd, he⟩)
    rw [TypeDecl.entry, TypeDecl.entry, hname] at hne
    exact hne rfl
  · exact h d hd e he hdeeper

theorem resolve_entry_iff (hdotless : Name.Dotless t.name.name)
    (hdistinct : (m.declaredTypes.map (·.qualifiedName)).Nodup) :
    (ofModule m index).resolve t.name.name = .type (t.entry m.packageName? []).qualifiedName ↔
      ∀ e ∈ before.flatMap (TypeDecl.declared m.packageName? []), e.simpleName ≠ t.name.name := by
  have hsplit := declaredTypes_split htypes
  cases hfind : (before.flatMap (TypeDecl.declared m.packageName? [])).find?
      (·.simpleName == t.name.name) with
  | none =>
    have hfirst : m.declaredTypes.find? (·.simpleName == t.name.name)
        = some (t.entry m.packageName? []) := by
      rw [hsplit, List.find?_append, hfind, Option.none_or, List.find?_cons_of_pos]
      exact beq_self_eq_true _
    rw [List.find?_eq_none] at hfind
    exact iff_of_true (resolve_declared hdotless hfirst) fun e he => by simpa using hfind e he
  | some e =>
    have hfirst : m.declaredTypes.find? (·.simpleName == t.name.name) = some e := by
      rw [hsplit, List.find?_append, hfind, Option.some_or]
    have he := List.mem_of_find?_eq_some hfind
    rw [resolve_declared hdotless hfirst]
    refine iff_of_false (fun h => ?_) fun h => h e he (beq_iff_eq.mp (List.find?_some hfind :))
    exact entry_ne_of_mem_before htypes hdistinct he (Resolved.type.inj h)

end

/-- **A declared type is seen exactly if it is the first of its name.** A simple name means the first
type that the module declares under it, at whatever depth. A type of the module is therefore found by
its simple name unless a type of that name stands inside an earlier one, and a full name is local unless
another type of that simple name is declared further to the front. -/
theorem declared_seen_iff {source : String} (hparse : Module.parse source = .ok m)
    (hdistinct : (m.declaredTypes.map (·.qualifiedName)).Nodup) (index : TypeIndex) :
    (∀ simple d, m.declaredTypes.find? (·.simpleName == simple) = some d →
      (ofModule m index).resolve simple = .type d.qualifiedName) ∧
    (∀ before t after, m.types = before ++ t :: after →
      ((ofModule m index).resolve t.name.name
          = .type (Name.ofSegments (m.packageName?.toList ++ [t.name.name])) ↔
        ∀ d ∈ before, ∀ e ∈ d.declared m.packageName? [], 0 < e.depth →
          e.simpleName ≠ t.name.name)) ∧
    ∀ name, (ofModule m index).isLocal name = true ↔
      ∃ d, m.declaredTypes.find? (·.simpleName == d.simpleName) = some d ∧ d.qualifiedName = name := by
  have hdotless {d : DeclaredType} (hd : d ∈ m.declaredTypes) : Name.Dotless d.simpleName := by
    obtain ⟨_, _, _, hname⟩ := declared_spelled (parse_sound hparse).2.2 hd
    exact dotless_of_isWordText (isWordText_of_isNameText hname)
  refine ⟨fun simple d hd => ?_, fun before t after htypes => ?_, fun name => isLocal_ofModule_iff⟩
  · obtain rfl : d.simpleName = simple := beq_iff_eq.mp (List.find?_some hd :)
    exact resolve_declared (hdotless (List.mem_of_find?_eq_some hd)) hd
  · have hentry : t.entry m.packageName? [] ∈ m.declaredTypes := by
      rw [declaredTypes_split htypes]
      exact List.mem_append_right _ List.mem_cons_self
    have hname : (t.entry m.packageName? []).qualifiedName
        = Name.ofSegments (m.packageName?.toList ++ [t.name.name]) := by
      rw [TypeDecl.entry, List.append_nil]
    rw [← hname, resolve_entry_iff htypes (hdotless hentry) hdistinct]
    exact simpleName_ne_before_iff htypes hdistinct

/-- A type of the module that is hidden by one inside the type in front of it. -/
theorem declared_seen_iff_hidden : ∃ m,
    Module.parse "class A { class B {} } class B {}" = .ok m ∧
    (m.declaredTypes.map (·.qualifiedName)).Nodup ∧
    m.declaredTypes.map (·.qualifiedName) = ["A", "A.B", "B"] ∧
    ∀ index, (ofModule m index).resolve "B" = .type "A.B" ∧ (ofModule m index).isLocal "B" = false := by
  have hcheck : (Module.parse "class A { class B {} } class B {}").toOption.map Module.declaredTypes
      = some [⟨"A", "A", .ofClass, 0⟩, ⟨"B", "A.B", .ofClass, 1⟩, ⟨"B", "B", .ofClass, 0⟩] := by
    decide +kernel
  obtain ⟨m, hm, hdeclared⟩ := Option.map_eq_some_iff.mp hcheck
  have hdistinct : (m.declaredTypes.map (·.qualifiedName)).Nodup := by
    rw [hdeclared]
    decide
  refine ⟨m, eq_ok_of_toOption hm, hdistinct, by rw [hdeclared]; rfl, fun index => ?_⟩
  obtain ⟨hresolve, _, hlocal⟩ := declared_seen_iff (eq_ok_of_toOption hm) hdistinct index
  refine ⟨hresolve "B" ⟨"B", "A.B", .ofClass, 1⟩ (by rw [hdeclared]; rfl), ?_⟩
  rw [Bool.eq_false_iff, ne_eq, hlocal, hdeclared]
  rintro ⟨d, hfirst, hname⟩
  have hd := List.mem_of_find?_eq_some hfirst
  simp only [List.mem_cons, List.not_mem_nil, or_false] at hd
  rcases hd with rfl | rfl | rfl
  · exact absurd hname (by decide)
  · exact absurd hname (by decide)
  · exact absurd hfirst (by decide)

end SymbolTable

end Migration
