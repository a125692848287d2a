import Migration.Proofs.Traversal.Walk
import Migration.Proofs.Tree.Numbered

/-!
# Names and their numbers

A name stands at each type and at each simple expression, together with a number (`Node.spelling?`). In the
outline of a tree these numbers come in the order in which they stand in the tree (`sublist_ids`). So in
a numbered module a number stands for one name only (`Module.Numbered.spelling_eq`).
-/

namespace Migration

/-- The number and the name at a type or at a simple expression. -/
def Node.spelling? : Node → Option (NodeId × String)
  | .typeName t => some (t.id, t.name)
  | .nameExpr i => some (i.id, i.name)
  | _ => none

namespace Outline

/-- The names of types and simple expressions, with their numbers. -/
def spellings (os : List Outline) : List (NodeId × String) := collect Node.spelling? os

theorem spellings_append (os ps : List Outline) : spellings (os ++ ps) = spellings os ++ spellings ps :=
  collect_append _ os ps

theorem spellings_cons (o : Outline) (os : List Outline) :
    spellings (o :: os) = spellings [o] ++ spellings os := collect_cons _ o os

theorem spellings_node (n : Node) (below : List Outline) :
    spellings [.node n below] = n.spelling?.toList ++ spellings below := collect_node _ n below

/-- The numbers at names in some outlines come in the order of `ids`. -/
def NamesIn (os : List Outline) (ids : List NodeId) : Prop := ((spellings os).map (·.1)).Sublist ids

namespace NamesIn

variable {os ps : List Outline} {xs ys : List NodeId}

theorem free (h : spellings os = []) (ids : List NodeId) : NamesIn os ids := by
  rw [NamesIn, h]
  exact List.nil_sublist _

theorem append (h : NamesIn os xs) (h' : NamesIn ps ys) : NamesIn (os ++ ps) (xs ++ ys) := by
  rw [NamesIn, spellings_append, List.map_append]
  exact List.Sublist.append h h'

/-- The node itself has no name. -/
theorem node {n : Node} (hn : n.spelling? = none) (h : NamesIn os xs) : NamesIn [.node n os] xs := by
  rw [NamesIn, spellings_node, hn]
  exact h

theorem after (front : List NodeId) (h : NamesIn os xs) : NamesIn os (front ++ xs) :=
  List.Sublist.trans h (List.sublist_append_right front xs)

end NamesIn

end Outline

open Outline (spellings NamesIn)

/-! ### Types -/

mutual

theorem TypeName.namesIn : (t : TypeName) → NamesIn [t.outline] t.ids
  | ⟨_, _, _, none, _⟩ => List.Sublist.refl _
  | ⟨_, _, _, some args, _⟩ => by
    rw [NamesIn, TypeName.outline, Outline.spellings_node, List.map_append]
    exact (List.Sublist.refl _).append args.namesIn

theorem TypeArguments.namesIn : (a : TypeArguments) → NamesIn a.outline a.ids
  | ⟨_, ⟨_, items, _⟩⟩ => (TypeName.namesIn_all items).after [_]

theorem TypeName.namesIn_all :
    (ps : List (Padded TypeName)) → NamesIn (TypeName.outlineAll ps) (TypeName.idsAll ps)
  | [] => List.Sublist.refl _
  | ⟨t, _⟩ :: rest => t.namesIn.append (TypeName.namesIn_all rest)

end

/-! ### Expressions -/

mutual

theorem Expr.namesIn : (e : Expr) → NamesIn [e.outline] e.ids
  | .name _ => List.Sublist.refl _
  | .literal _ => .free rfl _
  | .access ⟨_, target, _, _, _⟩ => .node rfl (.node rfl (target.namesIn.after _))
  | .call ⟨_, none, _, _, ⟨_, items, _⟩⟩ => .node rfl (.node rfl ((Expr.namesIn_all items).after _))
  | .call ⟨_, some target, _, _, ⟨_, items, _⟩⟩ =>
    .node rfl (.node rfl ((target.namesIn.append (Expr.namesIn_all items)).after _))
  | .create ⟨_, _, type, ⟨_, items, _⟩⟩ =>
    .node rfl (.node rfl ((type.namesIn.append (Expr.namesIn_all items)).after [_]))
  | .binary ⟨_, left, _, _, right⟩ => .node rfl ((left.namesIn.append right.namesIn).after _)
  | .parens ⟨_, _, inner, _⟩ => .node rfl (inner.namesIn.after _)

theorem Expr.namesIn_all :
    (ps : List (Padded Expr)) → NamesIn (Expr.outlineAll ps) (Expr.idsAll ps)
  | [] => List.Sublist.refl _
  | ⟨e, _⟩ :: rest => e.namesIn.append (Expr.namesIn_all rest)

end

/-! ### Statements and declarations -/

theorem spellings_markers (modifiers : List Ident) : spellings (outlineMarkers modifiers) = [] := by
  rw [outlineMarkers]
  induction modifiers.filter Ident.isMarker with
  | nil => rfl
  | cons i is ih =>
    rw [List.map_cons, Outline.spellings_cons, ih]
    rfl

/-- Annotations in front have no part in it. -/
theorem NamesIn.afterMarkers {os : List Outline} {ids : List NodeId} (modifiers : List Ident)
    (h : NamesIn os ids) : NamesIn (outlineMarkers modifiers ++ os) ids := by
  rw [NamesIn, Outline.spellings_append, spellings_markers]
  exact h

theorem NamesIn.opt {α : Type} {f : α → Outline} {g : α → List NodeId}
    (h : ∀ x, NamesIn [f x] (g x)) (x : Option α) : NamesIn (x.map f).toList (x.toList.flatMap g) := by
  cases x with
  | none => exact .free rfl _
  | some x =>
    rw [Option.toList_some, List.flatMap_singleton]
    exact h x

theorem NamesIn.flatMap {α : Type} {f : α → List Outline} {g : α → List NodeId}
    (h : ∀ x, NamesIn (f x) (g x)) (xs : List α) : NamesIn (xs.flatMap f) (xs.flatMap g) := by
  induction xs with
  | nil => exact .free rfl _
  | cons x xs ih => exact (h x).append ih

theorem Variable.namesIn (v : Variable) : NamesIn v.outlines v.ids := by
  rw [Variable.ids, List.append_assoc]
  refine NamesIn.after _ (NamesIn.afterMarkers _ (v.type.namesIn.append ?_))
  exact NamesIn.opt (fun i => i.value.namesIn) v.value

mutual

theorem Stmt.namesIn : (s : Stmt) → NamesIn s.outlines s.ids
  | .expr s => s.expr.namesIn.after _
  | .localVar v => v.namesIn
  | .ret s => (NamesIn.opt Expr.namesIn s.value).after _
  | .block b => b.namesIn

theorem Block.namesIn : (b : Block) → NamesIn [b.outline] b.ids
  | ⟨_, _, statements, _⟩ => .node rfl ((Stmt.namesIn_all statements).after _)

theorem Stmt.namesIn_all : (ss : List Stmt) → NamesIn (Stmt.outlineAll ss) (Stmt.idsAll ss)
  | [] => List.Sublist.refl _
  | s :: rest => s.namesIn.append (Stmt.namesIn_all rest)

end

theorem Param.namesIn (p : Param) : NamesIn p.outlines p.ids :=
  NamesIn.after _ (NamesIn.afterMarkers _ p.type.namesIn)

theorem Method.namesIn (m : Method) : NamesIn [m.outline] m.ids := by
  rw [Method.outline, Method.ids, Method.headerIds]
  refine .node rfl (NamesIn.append ?_ ?_)
  · rw [List.append_assoc, List.append_assoc]
    refine NamesIn.after _ (NamesIn.afterMarkers _ (NamesIn.append ?_ ?_))
    · exact NamesIn.opt TypeName.namesIn m.returnType
    · exact NamesIn.flatMap (fun p => p.elem.namesIn) m.params.items
  · cases m.body with
    | block b => exact b.namesIn
    | absent _ => exact .free rfl _

theorem namesIn_header (name : Ident) (modifiers : List Ident) (typeParams : Option TypeArguments)
    (extending implementing : Option TypeClause) :
    NamesIn (outlineHeader modifiers typeParams extending implementing)
      (headerIds name modifiers typeParams extending implementing) := by
  have hclause (c : TypeClause) : NamesIn c.outlines c.ids := (TypeName.namesIn_all c.types).after [_]
  rw [outlineHeader, headerIds]
  simp only [List.append_assoc]
  refine NamesIn.after _ (NamesIn.afterMarkers _ ?_)
  exact (NamesIn.flatMap TypeArguments.namesIn _).append
    ((NamesIn.flatMap hclause _).append (NamesIn.flatMap hclause _))

mutual

theorem Member.namesIn : (m : Member) → NamesIn [m.outline] m.ids
  | .field v => .node rfl v.namesIn
  | .method m => m.namesIn
  | .type d => d.namesIn

theorem TypeDecl.namesIn : (d : TypeDecl) → NamesIn [d.outline] d.ids
  | ⟨_, _, _, _, _, _, _, _, _, ⟨_, _, members, _⟩⟩ =>
    .node rfl (((namesIn_header _ _ _ _ _).after [_]).append ((Member.namesIn_all members).after _))

theorem Member.namesIn_all : (ms : List Member) → NamesIn (Member.outlineAll ms) (Member.idsAll ms)
  | [] => List.Sublist.refl _
  | m :: rest => m.namesIn.append (Member.namesIn_all rest)

end

/-- **The numbers at the names of a module are among its numbers**, in order. -/
theorem Module.namesIn (m : Module) : NamesIn (m.types.map TypeDecl.outline) m.ids := by
  rw [Module.ids]
  refine NamesIn.after _ ?_
  rw [← List.flatMap_singleton' (m.types.map TypeDecl.outline), List.flatMap_map]
  exact NamesIn.flatMap TypeDecl.namesIn m.types

/-- **A number stands for one name only.** -/
theorem Module.Numbered.spelling_eq {m : Module} (hm : m.Numbered) {id : NodeId} {name name' : String}
    (h : (id, name) ∈ spellings (m.types.map TypeDecl.outline))
    (h' : (id, name') ∈ spellings (m.types.map TypeDecl.outline)) : name = name' := by
  have hnodup := m.namesIn.nodup hm.nodup
  exact (Prod.ext_iff.mp (List.inj_on_of_nodup_map hnodup h h' rfl)).2

end Migration
