import Migration.Proofs.Traversal.Walk
import Migration.Proofs.Tree.WellFormed

/-!
# The nodes of well-formed trees

Whether a tree is well formed is said from its root downwards. Here it is said node by node: what stands
at any node of a well-formed tree is well formed itself (`Module.nodes_wellFormed`). Each node hands on
what holds of it to those directly below it, so there is one case for each way in which a node stands
below another.
-/

namespace Migration

/-- What stands at the node is well formed. Whether a dot follows an expression is left open. -/
def Node.WellFormed : Node → Prop
  | .module m => m.WellFormed
  | .importDecl i => i.WellFormed
  | .typeDecl d => d.WellFormed
  | .field v => v.WellFormed
  | .method m => m.WellFormed
  | .block b => b.WellFormed
  | .typeName t => t.WellFormed
  | .marker i => isModifierText i.name = true
  | .expr e => ∃ dotted, e.WellFormed dotted
  | .nameExpr i => isNameText i.name = true
  | .access a => ∃ dotted, (Expr.access a).WellFormed dotted
  | .call c => ∃ dotted, (Expr.call c).WellFormed dotted
  | .creation c => ∃ dotted, (Expr.create c).WellFormed dotted

namespace Outline

/-- What stands at any node of the outlines is well formed. -/
def AllWellFormed (os : List Outline) : Prop := ∀ n ∈ preorderAll os, n.WellFormed

theorem allWellFormed_nil : AllWellFormed [] := List.forall_mem_nil _

theorem allWellFormed_append {os ps : List Outline} :
    AllWellFormed (os ++ ps) ↔ AllWellFormed os ∧ AllWellFormed ps := by
  rw [AllWellFormed, preorderAll_append, List.forall_mem_append, AllWellFormed, AllWellFormed]

theorem allWellFormed_cons {o : Outline} {os : List Outline} :
    AllWellFormed (o :: os) ↔ AllWellFormed [o] ∧ AllWellFormed os := by
  rw [← allWellFormed_append]
  rfl

theorem allWellFormed_node {n : Node} {below : List Outline} :
    AllWellFormed [.node n below] ↔ n.WellFormed ∧ AllWellFormed below := by
  simp only [AllWellFormed, preorderAll, preorder, List.append_nil, List.forall_mem_cons]

theorem allWellFormed_leaf {n : Node} : AllWellFormed [leaf n] ↔ n.WellFormed :=
  allWellFormed_node.trans (and_iff_left allWellFormed_nil)

theorem allWellFormed_map {α : Type} {f : α → Outline} {xs : List α}
    (h : ∀ x ∈ xs, AllWellFormed [f x]) : AllWellFormed (xs.map f) := by
  induction xs with
  | nil => exact allWellFormed_nil
  | cons x xs ih =>
    obtain ⟨hx, hxs⟩ := List.forall_mem_cons.mp h
    exact allWellFormed_cons.mpr ⟨hx, ih hxs⟩

theorem allWellFormed_option {α : Type} {f : α → Outline} {o : Option α}
    (h : ∀ x ∈ o, AllWellFormed [f x]) : AllWellFormed (o.map f).toList := by
  cases o with
  | none => exact allWellFormed_nil
  | some x => exact h x rfl

theorem allWellFormed_optional {α : Type} {f : α → List Outline} {o : Option α}
    (h : ∀ x ∈ o, AllWellFormed (f x)) : AllWellFormed (o.toList.flatMap f) := by
  cases o with
  | none => exact allWellFormed_nil
  | some x =>
    rw [Option.toList_some, List.flatMap_singleton]
    exact h x rfl

/-- Annotations are modifiers. -/
theorem allWellFormed_markers {modifiers : List Ident}
    (h : ∀ m ∈ modifiers, isModifierText m.name = true) : AllWellFormed (outlineMarkers modifiers) :=
  allWellFormed_map fun m hm => allWellFormed_leaf.mpr (h m (List.mem_filter.mp hm).1)

end Outline

open Outline (AllWellFormed allWellFormed_nil allWellFormed_append allWellFormed_cons
  allWellFormed_node allWellFormed_leaf allWellFormed_map allWellFormed_option allWellFormed_optional
  allWellFormed_markers)

/-! ### Types -/

mutual

theorem TypeName.nodes_wellFormed : (t : TypeName) → t.WellFormed → AllWellFormed [t.outline]
  | ⟨_, _, _, none, _⟩, h => allWellFormed_leaf.mpr h
  | ⟨_, _, _, some args, _⟩, h => allWellFormed_node.mpr ⟨h, args.nodes_wellFormed h.2.2⟩

theorem TypeArguments.nodes_wellFormed : (a : TypeArguments) → a.WellFormed → AllWellFormed a.outline
  | ⟨_, ⟨_, items, _⟩⟩, h => TypeName.nodes_wellFormedAll items h

theorem TypeName.nodes_wellFormedAll : (ps : List (Padded TypeName)) → TypeName.WellFormedAll ps →
    AllWellFormed (TypeName.outlineAll ps)
  | [], _ => allWellFormed_nil
  | [⟨t, _⟩], h => t.nodes_wellFormed h.1
  | ⟨t, _⟩ :: q :: rest, h =>
    allWellFormed_cons.mpr ⟨t.nodes_wellFormed h.1, TypeName.nodes_wellFormedAll (q :: rest) h.2⟩

end

/-! ### Expressions -/

mutual

theorem Expr.nodes_wellFormed : (e : Expr) → {dotted : Bool} → e.WellFormed dotted →
    AllWellFormed [e.outline]
  | .name _, _, h => allWellFormed_node.mpr ⟨⟨_, h⟩, allWellFormed_leaf.mpr h⟩
  | .literal _, _, h => allWellFormed_leaf.mpr ⟨false, h⟩
  | .access ⟨_, target, _, _, _⟩, _, h =>
    allWellFormed_node.mpr ⟨⟨_, h⟩, allWellFormed_node.mpr ⟨⟨_, h⟩, target.nodes_wellFormed h.1⟩⟩
  | .call ⟨_, none, _, _, ⟨_, items, _⟩⟩, _, h =>
    allWellFormed_node.mpr ⟨⟨_, h⟩,
      allWellFormed_node.mpr ⟨⟨_, h⟩, Expr.nodes_wellFormedAll items h.2.2⟩⟩
  | .call ⟨_, some target, _, _, ⟨_, items, _⟩⟩, _, h =>
    allWellFormed_node.mpr ⟨⟨_, h⟩, allWellFormed_node.mpr ⟨⟨_, h⟩, allWellFormed_cons.mpr
      ⟨target.nodes_wellFormed h.1, Expr.nodes_wellFormedAll items h.2.2.2⟩⟩⟩
  | .create ⟨_, _, type, ⟨_, items, _⟩⟩, _, h =>
    allWellFormed_node.mpr ⟨⟨_, h⟩, allWellFormed_node.mpr ⟨⟨_, h⟩, allWellFormed_cons.mpr
      ⟨type.nodes_wellFormed h.1, Expr.nodes_wellFormedAll items h.2⟩⟩⟩
  | .binary ⟨_, left, _, _, right⟩, _, h =>
    allWellFormed_node.mpr ⟨⟨_, h⟩,
      allWellFormed_cons.mpr ⟨left.nodes_wellFormed h.1, right.nodes_wellFormed h.2.1⟩⟩
  | .parens ⟨_, _, inner, _⟩, _, h => allWellFormed_node.mpr ⟨⟨_, h⟩, inner.nodes_wellFormed h⟩

theorem Expr.nodes_wellFormedAll : (ps : List (Padded Expr)) → Expr.WellFormedAll ps →
    AllWellFormed (Expr.outlineAll ps)
  | [], _ => allWellFormed_nil
  | [⟨e, _⟩], h => e.nodes_wellFormed h.1
  | ⟨e, _⟩ :: q :: rest, h =>
    allWellFormed_cons.mpr ⟨e.nodes_wellFormed h.1, Expr.nodes_wellFormedAll (q :: rest) h.2⟩

end

/-! ### Statements -/

theorem Variable.nodes_wellFormed {v : Variable} (h : v.WellFormed) : AllWellFormed v.outlines := by
  refine allWellFormed_append.mpr ⟨allWellFormed_markers h.declares.modifiers_ok, ?_⟩
  refine allWellFormed_cons.mpr ⟨v.type.nodes_wellFormed h.declares.type_ok, ?_⟩
  exact allWellFormed_option fun i hi => i.value.nodes_wellFormed (h.value i hi)

mutual

theorem Stmt.nodes_wellFormed : (x : Stmt) → x.WellFormed → AllWellFormed x.outlines
  | .expr x, h => x.expr.nodes_wellFormed h.2.1
  | .localVar _, h => Variable.nodes_wellFormed h.1
  | .ret _, h => allWellFormed_option fun e he => e.nodes_wellFormed (h e he)
  | .block b, h => b.nodes_wellFormed h

theorem Block.nodes_wellFormed : (b : Block) → b.WellFormed → AllWellFormed [b.outline]
  | ⟨_, _, statements, _⟩, h => allWellFormed_node.mpr ⟨h, Stmt.nodes_wellFormedAll statements h⟩

theorem Stmt.nodes_wellFormedAll : (xs : List Stmt) → Stmt.WellFormedAll xs →
    AllWellFormed (Stmt.outlineAll xs)
  | [], _ => allWellFormed_nil
  | x :: xs, h => allWellFormed_append.mpr ⟨x.nodes_wellFormed h.1, Stmt.nodes_wellFormedAll xs h.2⟩

end

/-! ### Declarations -/

theorem Param.nodes_wellFormed {p : Param} (h : p.WellFormed) : AllWellFormed p.outlines :=
  allWellFormed_append.mpr ⟨allWellFormed_markers h.modifiers_ok, p.type.nodes_wellFormed h.type_ok⟩

theorem Param.nodes_wellFormedAll {ps : List (Padded Param)} (h : ItemsOk Param.WellFormed ps) :
    AllWellFormed (ps.flatMap (·.elem.outlines)) := by
  induction ps with
  | nil => exact allWellFormed_nil
  | cons p rest ih =>
    cases rest with
    | nil => exact allWellFormed_append.mpr ⟨Param.nodes_wellFormed h.1, allWellFormed_nil⟩
    | cons q rest => exact allWellFormed_append.mpr ⟨Param.nodes_wellFormed h.1, ih h.2⟩

theorem MethodBody.nodes_wellFormed : {b : MethodBody} → b.WellFormed → AllWellFormed b.outlines
  | .block b, h => b.nodes_wellFormed h
  | .absent _, _ => allWellFormed_nil

theorem Method.WellFormed.modifiers_ok {m : Method} (h : m.WellFormed) :
    ∀ i ∈ m.modifiers, isModifierText i.name = true := by
  cases htype : m.returnType with
  | none => exact (h.constructs htype).modifiers_ok
  | some t => exact (h.declares t htype).modifiers_ok

theorem Method.nodes_wellFormed {m : Method} (h : m.WellFormed) : AllWellFormed [m.outline] := by
  refine allWellFormed_node.mpr ⟨h, ?_⟩
  simp only [allWellFormed_append]
  refine ⟨⟨⟨allWellFormed_markers h.modifiers_ok, ?_⟩, Param.nodes_wellFormedAll h.params⟩,
    MethodBody.nodes_wellFormed h.body⟩
  exact allWellFormed_option fun t ht => t.nodes_wellFormed (h.declares t ht).type_ok

theorem TypeClause.nodes_wellFormed {c : TypeClause} (h : c.WellFormed) : AllWellFormed c.outlines :=
  TypeName.nodes_wellFormedAll c.types ((TypeName.wellFormedAll_iff _).mpr h.types)

theorem DeclaresType.nodes_wellFormed {modifiers : List Ident} {kindLead : Trivia} {name : Ident}
    {typeParams : Option TypeArguments} {extending implementing : Option TypeClause}
    (h : DeclaresType modifiers kindLead name typeParams extending implementing) :
    AllWellFormed (outlineHeader modifiers typeParams extending implementing) := by
  rw [outlineHeader]
  simp only [allWellFormed_append]
  exact ⟨⟨⟨allWellFormed_markers h.modifiers_ok,
    allWellFormed_optional fun a ha => a.nodes_wellFormed (h.typeParams_ok a ha)⟩,
    allWellFormed_optional fun c hc => TypeClause.nodes_wellFormed (h.extending_ok c hc)⟩,
    allWellFormed_optional fun c hc => TypeClause.nodes_wellFormed (h.implementing_ok c hc)⟩

mutual

theorem Member.nodes_wellFormed : (x : Member) → x.WellFormed → AllWellFormed [x.outline]
  | .field _, h => allWellFormed_node.mpr ⟨h, Variable.nodes_wellFormed h⟩
  | .method _, h => Method.nodes_wellFormed h
  | .type d, h => d.nodes_wellFormed h

theorem TypeDecl.nodes_wellFormed : (d : TypeDecl) → d.WellFormed → AllWellFormed [d.outline]
  | ⟨_, _, _, _, _, _, _, _, _, ⟨_, _, members, _⟩⟩, h =>
    allWellFormed_node.mpr ⟨h, allWellFormed_append.mpr
      ⟨h.1.nodes_wellFormed, Member.nodes_wellFormedAll members h.2⟩⟩

theorem Member.nodes_wellFormedAll : (xs : List Member) → Member.WellFormedAll xs →
    AllWellFormed (Member.outlineAll xs)
  | [], _ => allWellFormed_nil
  | x :: xs, h => allWellFormed_cons.mpr ⟨x.nodes_wellFormed h.1, Member.nodes_wellFormedAll xs h.2⟩

end

/-- **What stands at any node of a well-formed module is well formed.** -/
theorem Module.nodes_wellFormed {m : Module} (h : m.WellFormed) : AllWellFormed [m.outline] := by
  refine allWellFormed_node.mpr ⟨h, allWellFormed_append.mpr ⟨?_, ?_⟩⟩
  · exact allWellFormed_map fun i hi => allWellFormed_leaf.mpr (h.imports i hi)
  · exact allWellFormed_map fun d hd => d.nodes_wellFormed (h.types d hd)

end Migration
