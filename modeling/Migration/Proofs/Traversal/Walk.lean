import Migration.Traversal.Declarations
import Migration.Traversal.Usage

/-!
# What a walk collects

A visitor that goes everywhere and does nothing on leaving folds over the nodes in preorder
(`walk_eq_foldl`). The used names are therefore the heads of the names that occur in the types of a
module (`mem_usedNamesExcept`), whatever its imports are.

The declared types are collected with a stack of enclosing types. What is found depends only on which
type declarations are inside which (`Outline.types`), with their names and kinds
(`declaredTypes_congr`): fields and methods have no part in it.
-/

namespace Migration

/-! ### Folding over the nodes -/

namespace Outline

theorem preorderAll_append (os ps : List Outline) :
    preorderAll (os ++ ps) = preorderAll os ++ preorderAll ps := by
  induction os with
  | nil => rfl
  | cons o os ih => rw [List.cons_append, preorderAll, ih, preorderAll, List.append_assoc]

theorem walk_descend {σ : Type} {v : Visitor σ} {n : Node} {below : List Outline} {s s₁ s₂ : σ}
    (henter : v.enter n s = (.descend, s₁)) (hbelow : walkAll v below s₁ = (true, s₂)) :
    walk v (.node n below) s = (true, v.leave n s₂) := by
  rw [walk, henter]
  simp only [hbelow]

mutual

theorem walk_eq_foldl {σ : Type} {v : Visitor σ} {f : σ → Node → σ}
    (henter : ∀ n s, v.enter n s = (.descend, f s n)) (hleave : ∀ n s, v.leave n s = s) :
    (o : Outline) → (s : σ) → o.walk v s = (true, o.preorder.foldl f s)
  | .node n below, s => by
    rw [walk_descend (henter n s) (walkAll_eq_foldl henter hleave below (f s n)), hleave, preorder,
      List.foldl_cons]

theorem walkAll_eq_foldl {σ : Type} {v : Visitor σ} {f : σ → Node → σ}
    (henter : ∀ n s, v.enter n s = (.descend, f s n)) (hleave : ∀ n s, v.leave n s = s) :
    (os : List Outline) → (s : σ) → walkAll v os s = (true, (preorderAll os).foldl f s)
  | [], s => rfl
  | o :: os, s => by
    rw [walkAll, walk_eq_foldl henter hleave o s]
    simp only [walkAll_eq_foldl henter hleave os, preorderAll, List.foldl_append]

end

end Outline

/-! ### Collecting from the nodes -/

namespace Outline

/-- What is found at the nodes of several outlines, in preorder. -/
def collect {α : Type} (f : Node → Option α) (os : List Outline) : List α :=
  (preorderAll os).filterMap f

variable {α : Type} (f : Node → Option α)

theorem collect_append (os ps : List Outline) :
    collect f (os ++ ps) = collect f os ++ collect f ps := by
  rw [collect, preorderAll_append, List.filterMap_append, collect, collect]

theorem collect_cons (o : Outline) (os : List Outline) :
    collect f (o :: os) = collect f [o] ++ collect f os := collect_append f [o] os

theorem collect_node (n : Node) (below : List Outline) :
    collect f [.node n below] = (f n).toList ++ collect f below := by
  rw [collect, preorderAll, preorder, preorderAll, List.append_nil, List.filterMap_cons, collect]
  cases f n <;> rfl

theorem collect_leaf (n : Node) : collect f [leaf n] = (f n).toList := by
  rw [leaf, collect_node]
  exact List.append_nil _

theorem collect_access (a : FieldAccess) : collect f [(Expr.access a).outline]
    = (f (.expr (.access a))).toList ++ ((f (.access a)).toList ++ collect f [a.target.outline]) := by
  obtain ⟨id, target, dot, name, owner⟩ := a
  rw [Expr.outline, collect_node, collect_node]

theorem collect_call (c : MethodCall) : collect f [(Expr.call c).outline]
    = (f (.expr (.call c))).toList ++ ((f (.call c)).toList
      ++ (collect f (c.target.map Expr.outline).toList ++ collect f (Expr.outlineAll c.args.items))) := by
  obtain ⟨id, target, dot, name, ⟨opened, items, closed⟩⟩ := c
  cases target with
  | none => rw [Expr.outline, collect_node, collect_node]; rfl
  | some target => rw [Expr.outline, collect_node, collect_node, collect_cons]; rfl

theorem collect_create (c : Creation) : collect f [(Expr.create c).outline]
    = (f (.expr (.create c))).toList ++ ((f (.creation c)).toList
      ++ (collect f [c.type.outline] ++ collect f (Expr.outlineAll c.args.items))) := by
  obtain ⟨id, lead, type, ⟨opened, items, closed⟩⟩ := c
  rw [Expr.outline, collect_node, collect_node, collect_cons]

theorem collect_binary (b : Binary) : collect f [(Expr.binary b).outline]
    = (f (.expr (.binary b))).toList
      ++ (collect f [b.left.outline] ++ collect f [b.right.outline]) := by
  obtain ⟨id, left, opLead, op, right⟩ := b
  rw [Expr.outline, collect_node, collect_cons]

theorem collect_parens (p : Parens) : collect f [(Expr.parens p).outline]
    = (f (.expr (.parens p))).toList ++ collect f [p.inner.outline] := by
  obtain ⟨id, lead, inner, close⟩ := p
  rw [Expr.outline, collect_node]

theorem collect_block (b : Block) :
    collect f [b.outline] = (f (.block b)).toList ++ collect f (Stmt.outlineAll b.statements) := by
  obtain ⟨id, lead, statements, close⟩ := b
  rw [Block.outline, collect_node]

theorem collect_typeDecl (d : TypeDecl) : collect f [d.outline]
    = (f (.typeDecl d)).toList
      ++ (collect f (outlineHeader d.modifiers d.typeParams d.extending d.implementing)
        ++ collect f (Member.outlineAll d.body.members)) := by
  obtain ⟨id, lead, modifiers, kindLead, kind, name, params, extending, implementing, body⟩ := d
  obtain ⟨bodyId, bodyLead, members, close⟩ := body
  rw [TypeDecl.outline, collect_node, collect_append]
  rfl

end Outline

/-! ### Used names -/

/-- The name that stands at a node, unless the node is numbered in `skip`. -/
def Node.mention? (skip : List NodeId) : Node → Option String
  | .typeName t => if skip.contains t.id then none else some t.name
  | .nameExpr i => if skip.contains i.id then none else some i.name
  | .marker i => some i.markerName
  | _ => none

/-- The names that stand at the nodes of several outlines. -/
def Outline.mentions (skip : List NodeId) (os : List Outline) : List String :=
  collect (Node.mention? skip) os

theorem Outline.mentions_append {skip : List NodeId} (os ps : List Outline) :
    mentions skip (os ++ ps) = mentions skip os ++ mentions skip ps := collect_append _ os ps

theorem Outline.mentions_cons {skip : List NodeId} (o : Outline) (os : List Outline) :
    mentions skip (o :: os) = mentions skip [o] ++ mentions skip os := collect_cons _ o os

theorem Outline.mentions_node {skip : List NodeId} (n : Node) (below : List Outline) :
    mentions skip [.node n below] = (n.mention? skip).toList ++ mentions skip below :=
  collect_node _ n below

theorem Outline.mentions_leaf {skip : List NodeId} (n : Node) :
    mentions skip [leaf n] = (n.mention? skip).toList := collect_leaf _ n

theorem NameSet.mem_insertHead {s : NameSet} {name h : String} :
    h ∈ (s.insertHead name).toList ↔
      h ∈ s.toList ∨ (h ≠ "" ∧ h ≠ "?") ∧ Name.head name = h := by
  rw [insertHead]
  by_cases hskip : (Name.head name == "" || Name.head name == "?") = true
  · rw [if_pos hskip]
    rw [Bool.or_eq_true, beq_iff_eq, beq_iff_eq] at hskip
    constructor
    · exact Or.inl
    · rintro (hm | ⟨⟨h₁, h₂⟩, rfl⟩)
      · exact hm
      · rcases hskip with hs | hs
        · exact absurd hs h₁
        · exact absurd hs h₂
  · rw [if_neg hskip, mem_insert]
    rw [Bool.or_eq_true, beq_iff_eq, beq_iff_eq, not_or] at hskip
    constructor
    · rintro (rfl | hm)
      · exact Or.inr ⟨hskip, rfl⟩
      · exact Or.inl hm
    · rintro (hm | ⟨_, rfl⟩)
      · exact Or.inr hm
      · exact Or.inl rfl

/-- What entering a node does to the used names. -/
def insertMention (skip : List NodeId) (s : NameSet) (n : Node) : NameSet :=
  ((n.mention? skip).map s.insertHead).getD s

theorem enter_usageVisitor (skip : List NodeId) (n : Node) (s : NameSet) :
    (usageVisitor skip).enter n s = (.descend, insertMention skip s n) := by
  cases n with
  | typeName t =>
    simp only [usageVisitor, insertMention, Node.mention?]
    split <;> simp
  | nameExpr i =>
    simp only [usageVisitor, insertMention, Node.mention?]
    split <;> simp
  | _ => simp [usageVisitor, insertMention, Node.mention?]

theorem mem_foldl_insertMention {skip : List NodeId} {ns : List Node} {s : NameSet} {h : String} :
    h ∈ (ns.foldl (insertMention skip) s).toList ↔
      h ∈ s.toList ∨
        (h ≠ "" ∧ h ≠ "?") ∧ ∃ name ∈ ns.filterMap (Node.mention? skip), Name.head name = h := by
  induction ns generalizing s with
  | nil => simp
  | cons n ns ih =>
    rw [List.foldl_cons, ih, List.filterMap_cons, insertMention]
    cases n.mention? skip with
    | none => rfl
    | some name =>
      simp only [Option.map_some, Option.getD_some, NameSet.mem_insertHead, List.mem_cons,
        exists_eq_or_imp]
      rw [or_assoc, ← and_or_left]

/-- **The used names are the heads of the names in the types**, an empty name and `?` apart. -/
theorem mem_usedNamesExcept {m : Module} {skip : List NodeId} {h : String} :
    h ∈ (m.usedNamesExcept skip).toList ↔
      (h ≠ "" ∧ h ≠ "?")
        ∧ ∃ name ∈ Outline.mentions skip (m.types.map TypeDecl.outline), Name.head name = h := by
  have himports (is : List Import) :
      Outline.mentions skip (is.map fun i => .leaf (.importDecl i)) = [] := by
    induction is with
    | nil => rfl
    | cons i is ih =>
      rw [List.map_cons, Outline.mentions_cons, Outline.mentions_leaf, ih]
      rfl
  have hnodes : m.outline.preorder.filterMap (Node.mention? skip)
      = Outline.mentions skip (m.types.map TypeDecl.outline) := by
    have hall : m.outline.preorder.filterMap (Node.mention? skip)
        = Outline.mentions skip [m.outline] := by
      rw [Outline.mentions, Outline.collect, Outline.preorderAll, Outline.preorderAll,
        List.append_nil]
    rw [hall, Module.outline, Outline.mentions_node, Outline.mentions_append, himports]
    rfl
  rw [Module.usedNamesExcept, Module.walk,
    Outline.walk_eq_foldl (enter_usageVisitor skip) (fun _ _ => rfl), mem_foldl_insertMention, hnodes]
  simp [NameSet.empty]

theorem usedNamesExcept_subset {m : Module} {skip : List NodeId} {h : String}
    (hh : h ∈ (m.usedNamesExcept skip).toList) : h ∈ m.usedNames.toList := by
  obtain ⟨hne, name, hname, hhead⟩ := mem_usedNamesExcept.mp hh
  refine mem_usedNamesExcept.mpr ⟨hne, name, ?_, hhead⟩
  obtain ⟨n, hn, hmention⟩ := List.mem_filterMap.mp hname
  refine List.mem_filterMap.mpr ⟨n, hn, ?_⟩
  cases n with
  | typeName t =>
    simp only [Node.mention?] at hmention ⊢
    split at hmention
    · cases hmention
    · exact hmention
  | nameExpr i =>
    simp only [Node.mention?] at hmention ⊢
    split at hmention
    · cases hmention
    · exact hmention
  | _ => exact hmention

/-! ### Declared types -/

/-- A type declaration with those inside it. -/
inductive TypeTree where
  | node (name : String) (kind : TypeKind) (inner : List TypeTree)

mutual

/-- The outermost type declarations of an outline. -/
def Outline.types : Outline → List TypeTree
  | .node (.typeDecl d) below => [.node d.name.name d.kind (typesAll below)]
  | .node _ below => typesAll below
termination_by structural o => o

/-- The outermost type declarations of several outlines. -/
def Outline.typesAll : List Outline → List TypeTree
  | [] => []
  | o :: os => types o ++ typesAll os
termination_by structural os => os

end

mutual

/-- What walking over a type declaration does to the declared types. -/
def TypeTree.declare (package : Option String) : TypeTree → DeclarationState → DeclarationState
  | .node name kind inner, s =>
    let path := package.toList ++ s.enclosing.reverse ++ [name]
    let inside := declareAll package inner ⟨name :: s.enclosing,
      ⟨name, Name.ofSegments path, kind, s.enclosing.length⟩ :: s.declared⟩
    { inside with enclosing := inside.enclosing.tail }
termination_by structural t => t

/-- What walking over several type declarations does to the declared types. -/
def TypeTree.declareAll (package : Option String) :
    List TypeTree → DeclarationState → DeclarationState
  | [], s => s
  | t :: ts, s => declareAll package ts (declare package t s)
termination_by structural ts => ts

end

namespace Outline

theorem typesAll_append (os ps : List Outline) :
    typesAll (os ++ ps) = typesAll os ++ typesAll ps := by
  induction os with
  | nil => rfl
  | cons o os ih => rw [List.cons_append, typesAll, ih, typesAll, List.append_assoc]

theorem declareAll_append (package : Option String) (ts us : List TypeTree)
    (s : DeclarationState) :
    TypeTree.declareAll package (ts ++ us) s
      = TypeTree.declareAll package us (TypeTree.declareAll package ts s) := by
  induction ts generalizing s with
  | nil => rfl
  | cons t ts ih => rw [List.cons_append, TypeTree.declareAll, ih, TypeTree.declareAll]

mutual

theorem walk_declaration (package : Option String) : (o : Outline) → (s : DeclarationState) →
    o.walk (declarationVisitor package) s = (true, TypeTree.declareAll package o.types s)
  | .node n below, s => by
    cases n with
    | typeDecl d => exact walk_descend rfl (walkAll_declaration package below _)
    | _ => exact walk_descend rfl (walkAll_declaration package below s)

theorem walkAll_declaration (package : Option String) : (os : List Outline) →
    (s : DeclarationState) →
    walkAll (declarationVisitor package) os s = (true, TypeTree.declareAll package (typesAll os) s)
  | [], s => rfl
  | o :: os, s => by
    rw [walkAll, walk_declaration package o s]
    simp only [walkAll_declaration package os, typesAll, declareAll_append]

end

theorem typesAll_markers (is : List Ident) : typesAll (outlineMarkers is) = [] := by
  rw [outlineMarkers]
  induction is.filter Ident.isMarker with
  | nil => rfl
  | cons i is ih => exact ih

end Outline

open Outline (typesAll typesAll_append typesAll_markers)

mutual

theorem TypeName.types_outline : (t : TypeName) → t.outline.types = []
  | ⟨_, _, _, none, _⟩ => rfl
  | ⟨_, _, _, some args, _⟩ => args.typesAll_outline

theorem TypeArguments.typesAll_outline : (a : TypeArguments) → typesAll a.outline = []
  | ⟨_, ⟨_, items, _⟩⟩ => TypeName.typesAll_outlineAll items

theorem TypeName.typesAll_outlineAll :
    (ps : List (Padded TypeName)) → typesAll (TypeName.outlineAll ps) = []
  | [] => rfl
  | ⟨t, _⟩ :: rest => by
    rw [TypeName.outlineAll, typesAll, t.types_outline, TypeName.typesAll_outlineAll rest]
    rfl

end

mutual

theorem Expr.types_outline : (e : Expr) → e.outline.types = []
  | .name _ => rfl
  | .literal _ => rfl
  | .access ⟨_, target, _, _, _⟩ => by
    simp [Expr.outline, Outline.types, typesAll, target.types_outline]
  | .call ⟨_, none, _, _, ⟨_, items, _⟩⟩ => by
    simp [Expr.outline, Outline.types, typesAll, Expr.typesAll_outlineAll items]
  | .call ⟨_, some target, _, _, ⟨_, items, _⟩⟩ => by
    simp [Expr.outline, Outline.types, typesAll, target.types_outline,
      Expr.typesAll_outlineAll items]
  | .create ⟨_, _, type, ⟨_, items, _⟩⟩ => by
    simp [Expr.outline, Outline.types, typesAll, type.types_outline,
      Expr.typesAll_outlineAll items]
  | .binary ⟨_, left, _, _, right⟩ => by
    simp [Expr.outline, Outline.types, typesAll, left.types_outline, right.types_outline]
  | .parens ⟨_, _, inner, _⟩ => by
    simp [Expr.outline, Outline.types, typesAll, inner.types_outline]

theorem Expr.typesAll_outlineAll :
    (ps : List (Padded Expr)) → typesAll (Expr.outlineAll ps) = []
  | [] => rfl
  | ⟨e, _⟩ :: rest => by
    rw [Expr.outlineAll, typesAll, e.types_outline, Expr.typesAll_outlineAll rest]
    rfl

end

theorem Variable.typesAll_outlines (v : Variable) : typesAll v.outlines = [] := by
  rw [Variable.outlines, typesAll_append, typesAll_markers, typesAll, v.type.types_outline]
  cases v.value with
  | none => rfl
  | some i =>
    simp only [Option.map_some, Option.toList_some, typesAll, i.value.types_outline]
    rfl

mutual

theorem Stmt.typesAll_outlines : (s : Stmt) → typesAll s.outlines = []
  | .expr s => by
    rw [Stmt.outlines, typesAll, s.expr.types_outline]
    rfl
  | .localVar v => v.typesAll_outlines
  | .ret s => by
    rw [Stmt.outlines]
    cases s.value with
    | none => rfl
    | some e =>
      simp only [Option.map_some, Option.toList_some, typesAll, e.types_outline]
      rfl
  | .block b => by
    rw [Stmt.outlines, typesAll, b.types_outline]
    rfl

theorem Block.types_outline : (b : Block) → b.outline.types = []
  | ⟨_, _, statements, _⟩ => Stmt.typesAll_outlineAll statements

theorem Stmt.typesAll_outlineAll : (ss : List Stmt) → typesAll (Stmt.outlineAll ss) = []
  | [] => rfl
  | s :: rest => by
    rw [Stmt.outlineAll, typesAll_append, s.typesAll_outlines, Stmt.typesAll_outlineAll rest]
    rfl

end

theorem Method.types_outline (m : Method) : m.outline.types = [] := by
  have hparams (ps : List (Padded Param)) :
      typesAll (ps.flatMap (·.elem.outlines)) = [] := by
    induction ps with
    | nil => rfl
    | cons p ps ih =>
      rw [List.flatMap_cons, typesAll_append, ih, Param.outlines, typesAll_append, typesAll_markers,
        typesAll, p.elem.type.types_outline]
      rfl
  have hbody : typesAll m.body.outlines = [] := by
    cases m.body with
    | block b =>
      rw [MethodBody.outlines, typesAll, b.types_outline]
      rfl
    | absent semi => rfl
  have hreturn : typesAll (m.returnType.map TypeName.outline).toList = [] := by
    cases m.returnType with
    | none => rfl
    | some t =>
      simp only [Option.map_some, Option.toList_some, typesAll, t.types_outline]
      rfl
  rw [Method.outline, Outline.types, typesAll_append, typesAll_append, typesAll_append,
    typesAll_markers, hreturn, hparams, hbody]
  · rfl
  · intro d h
    cases h

theorem typesAll_outlineHeader (modifiers : List Ident) (typeParams : Option TypeArguments)
    (extending implementing : Option TypeClause) :
    typesAll (outlineHeader modifiers typeParams extending implementing) = [] := by
  have hclause (c : Option TypeClause) : typesAll (c.toList.flatMap TypeClause.outlines) = [] := by
    cases c with
    | none => rfl
    | some c =>
      simp only [Option.toList_some, List.flatMap_singleton]
      exact TypeName.typesAll_outlineAll c.types
  have hparams : typesAll (typeParams.toList.flatMap TypeArguments.outline) = [] := by
    cases typeParams with
    | none => rfl
    | some a =>
      simp only [Option.toList_some, List.flatMap_singleton]
      exact a.typesAll_outline
  rw [outlineHeader, typesAll_append, typesAll_append, typesAll_append, typesAll_markers, hparams,
    hclause, hclause]
  rfl

theorem TypeDecl.types_outline (d : TypeDecl) :
    d.outline.types
      = [.node d.name.name d.kind (typesAll (Member.outlineAll d.body.members))] := by
  obtain ⟨id, lead, modifiers, kindLead, kind, name, params, extending, implementing, body⟩ := d
  obtain ⟨bodyId, bodyLead, members, close⟩ := body
  rw [TypeDecl.outline, Outline.types, typesAll_append, typesAll_outlineHeader]
  rfl

theorem Module.types_outline (m : Module) :
    m.outline.types = typesAll (m.types.map TypeDecl.outline) := by
  have himports (is : List Import) : typesAll (is.map fun i => .leaf (.importDecl i)) = [] := by
    induction is with
    | nil => rfl
    | cons i is ih => exact ih
  rw [Module.outline, Outline.types, typesAll_append, himports]
  · rfl
  · intro d h
    cases h

/-- **The declared types depend on the nesting of type declarations only.** -/
theorem declaredTypes_congr {m m' : Module} (hpackage : m'.package = m.package)
    (htypes : typesAll (m'.types.map TypeDecl.outline) = typesAll (m.types.map TypeDecl.outline)) :
    m'.declaredTypes = m.declaredTypes := by
  rw [Module.declaredTypes, Module.declaredTypes, Module.walk, Module.walk,
    Outline.walk_declaration, Outline.walk_declaration, Module.types_outline, Module.types_outline,
    htypes, Module.packageName?, Module.packageName?, hpackage]

end Migration
