import Migration.Proofs.Traversal.Walk

/-!
# Declared types by recursion

The declared types are collected with a stack of the types around the current node. On the tree they are
a recursion over declarations: a declaration declares itself, and then what is declared inside it, with
one more type around (`Module.declaredTypes_eq`). So the order is the order of the source, an outer type
in front of those inside it, and the depth tells the types of the module from those inside them
(`TypeDecl.eq_entry_or_deeper`).
-/

namespace Migration

mutual

/-- What a member declares, given the names of the types around it, outermost first. -/
def Member.declared (package : Option String) : List String → Member → List DeclaredType
  | _, .field _ => []
  | _, .method _ => []
  | outer, .type d => d.declared package outer
termination_by structural _ m => m

/-- The types that a declaration declares: its own, then those inside it. -/
def TypeDecl.declared (package : Option String) : List String → TypeDecl → List DeclaredType
  | outer, ⟨_, _, _, _, kind, name, _, _, _, body⟩ =>
    ⟨name.name, Name.ofSegments (package.toList ++ outer ++ [name.name]), kind, outer.length⟩
      :: body.declared package (outer ++ [name.name])
termination_by structural _ d => d

def TypeBody.declared (package : Option String) : List String → TypeBody → List DeclaredType
  | outer, ⟨_, _, members, _⟩ => Member.declaredAll package outer members
termination_by structural _ b => b

def Member.declaredAll (package : Option String) : List String → List Member → List DeclaredType
  | _, [] => []
  | outer, m :: rest => m.declared package outer ++ Member.declaredAll package outer rest
termination_by structural _ ms => ms

end

variable {package : Option String}

/-- The entry of a declaration itself. -/
def TypeDecl.entry (package : Option String) (outer : List String) (d : TypeDecl) : DeclaredType :=
  ⟨d.name.name, Name.ofSegments (package.toList ++ outer ++ [d.name.name]), d.kind, outer.length⟩

theorem TypeDecl.declared_eq (outer : List String) (d : TypeDecl) : d.declared package outer
    = d.entry package outer :: Member.declaredAll package (outer ++ [d.name.name]) d.body.members := by
  obtain ⟨_, _, _, _, _, _, _, _, _, ⟨_, _, _, _⟩⟩ := d
  rfl

/-! ### The walk -/

open Outline (typesAll typesAll_append declareAll_append)

/-- The state after more types have been declared. -/
def DeclarationState.add (s : DeclarationState) (ds : List DeclaredType) : DeclarationState :=
  { s with declared := ds.reverse ++ s.declared }

theorem DeclarationState.add_add (s : DeclarationState) (ds es : List DeclaredType) :
    (s.add ds).add es = s.add (ds ++ es) := by
  simp [add]

mutual

theorem Member.declare_types : (m : Member) → (s : DeclarationState) →
    TypeTree.declareAll package m.outline.types s = s.add (m.declared package s.enclosing.reverse)
  | .field v, s => by
    simp only [Member.outline, Outline.types, Variable.typesAll_outlines]
    rfl
  | .method m, s => by
    simp only [Member.outline, Method.types_outline]
    rfl
  | .type d, s => TypeDecl.declare_types d s

/-- What a walk over a declaration adds to the declared types. -/
theorem TypeDecl.declare_types : (d : TypeDecl) → (s : DeclarationState) →
    TypeTree.declareAll package d.outline.types s = s.add (d.declared package s.enclosing.reverse)
  | ⟨_, _, _, _, kind, name, _, _, _, ⟨_, _, members, _⟩⟩, s => by
    rw [TypeDecl.types_outline, TypeTree.declareAll, TypeTree.declareAll, TypeTree.declare,
      Member.declare_typesAll members]
    simp [DeclarationState.add, TypeDecl.declared, TypeBody.declared]

theorem Member.declare_typesAll : (ms : List Member) → (s : DeclarationState) →
    TypeTree.declareAll package (typesAll (Member.outlineAll ms)) s
      = s.add (Member.declaredAll package s.enclosing.reverse ms)
  | [], _ => rfl
  | m :: ms, s => by
    rw [Member.outlineAll, typesAll, declareAll_append, Member.declare_types m,
      Member.declare_typesAll ms, DeclarationState.add_add]
    rfl

end

/-- **The declared types are those of the declarations, one after the other.** -/
theorem Module.declaredTypes_eq (m : Module) :
    m.declaredTypes = m.types.flatMap (TypeDecl.declared m.packageName? []) := by
  have hall (ds : List TypeDecl) (s : DeclarationState) (hs : s.enclosing = []) :
      TypeTree.declareAll m.packageName? (typesAll (ds.map TypeDecl.outline)) s
        = s.add (ds.flatMap (TypeDecl.declared m.packageName? [])) := by
    induction ds generalizing s with
    | nil => rfl
    | cons d ds ih =>
      rw [List.map_cons, typesAll, declareAll_append, TypeDecl.declare_types, hs,
        ih _ (by exact hs), DeclarationState.add_add]
      rfl
  rw [Module.declaredTypes, Module.walk, Outline.walk_declaration, Module.types_outline,
    hall _ _ rfl]
  simp [DeclarationState.add]

/-! ### Depth -/

mutual

theorem Member.depth_declared : (m : Member) → {outer : List String} → {e : DeclaredType} →
    e ∈ m.declared package outer → outer.length ≤ e.depth
  | .field _, _, _, h => nomatch h
  | .method _, _, _, h => nomatch h
  | .type d, _, _, h => TypeDecl.depth_declared d h

theorem TypeDecl.depth_declared : (d : TypeDecl) → {outer : List String} → {e : DeclaredType} →
    e ∈ d.declared package outer → outer.length ≤ e.depth
  | ⟨_, _, _, _, _, name, _, _, _, ⟨_, _, members, _⟩⟩, outer, _, h => by
    rcases List.mem_cons.mp h with rfl | h
    · exact Nat.le_refl _
    · have hinner := Member.depth_declaredAll members h
      rw [List.length_append] at hinner
      exact Nat.le_of_succ_le hinner

theorem Member.depth_declaredAll : (ms : List Member) → {outer : List String} → {e : DeclaredType} →
    e ∈ Member.declaredAll package outer ms → outer.length ≤ e.depth
  | [], _, _, h => nomatch h
  | m :: ms, _, _, h => by
    rcases List.mem_append.mp h with h | h
    · exact Member.depth_declared m h
    · exact Member.depth_declaredAll ms h

end

/-- A declaration is as deep as there are types around it, and what is inside it is deeper. -/
theorem TypeDecl.eq_entry_or_deeper {d : TypeDecl} {outer : List String} {e : DeclaredType}
    (h : e ∈ d.declared package outer) : e = d.entry package outer ∨ outer.length < e.depth := by
  rw [TypeDecl.declared_eq] at h
  rcases List.mem_cons.mp h with rfl | h
  · exact .inl rfl
  · have hinner := Member.depth_declaredAll _ h
    rw [List.length_append] at hinner
    exact .inr hinner

end Migration
