import Migration.Proofs.Traversal.Nodes

/-!
# Accesses

Accesses are found in expressions only, so that whether something holds of all accesses of a
declaration (`Outline.Accesses`) depends on its statements and on the values of its variables
(`accesses_block`, `accesses_var`, `accesses_typeDecl`).

Two such properties: an access is tight when no trivia surrounds its dot (`Outline.Tight`), and what
can be read says nothing about the owners of its accesses (`Module.ownerless`).
-/

namespace Migration

/-- The access at a node. -/
def Node.access? : Node → Option FieldAccess
  | .access a => some a
  | _ => none

namespace Outline

/-- `P` holds of every access at a node of the outlines. -/
def Accesses (P : FieldAccess → Prop) (os : List Outline) : Prop :=
  ∀ a ∈ collect Node.access? os, P a

variable {P : FieldAccess → Prop}

theorem accesses_of_collect {os : List Outline} (h : collect Node.access? os = []) :
    Accesses P os := by
  intro a ha
  rw [h] at ha
  cases ha

theorem accesses_congr {os ps : List Outline}
    (h : collect Node.access? os = collect Node.access? ps) : Accesses P os ↔ Accesses P ps := by
  rw [Accesses, Accesses, h]

theorem accesses_append {os ps : List Outline} :
    Accesses P (os ++ ps) ↔ Accesses P os ∧ Accesses P ps := by
  rw [Accesses, collect_append, List.forall_mem_append, Accesses, Accesses]

theorem accesses_cons {o : Outline} {os : List Outline} :
    Accesses P (o :: os) ↔ Accesses P [o] ∧ Accesses P os := by
  rw [← accesses_append]
  rfl

theorem accesses_node {n : Node} {below : List Outline} :
    Accesses P [.node n below] ↔ (∀ a ∈ n.access?, P a) ∧ Accesses P below := by
  rw [Accesses, collect_node, List.forall_mem_append, Accesses]
  simp only [Option.mem_toList, Option.mem_def]

theorem accesses_iff_forall {os : List Outline} :
    Accesses P os ↔ ∀ o ∈ os, Accesses P [o] := by
  induction os with
  | nil => exact iff_of_true (accesses_of_collect rfl) (List.forall_mem_nil _)
  | cons o os ih => rw [accesses_cons, ih, List.forall_mem_cons]

/-! ### Expressions -/

theorem accesses_access {a : FieldAccess} :
    Accesses P [(Expr.access a).outline] ↔ P a ∧ Accesses P [a.target.outline] := by
  rw [Accesses, collect_access, Accesses]
  exact List.forall_mem_cons

theorem accesses_call {c : MethodCall} : Accesses P [(Expr.call c).outline] ↔
    Accesses P (c.target.map Expr.outline).toList ∧ Accesses P (Expr.outlineAll c.args.items) := by
  rw [← accesses_append]
  refine accesses_congr ?_
  rw [collect_call, collect_append]
  rfl

theorem accesses_binary {b : Binary} : Accesses P [(Expr.binary b).outline] ↔
    Accesses P [b.left.outline] ∧ Accesses P [b.right.outline] := by
  rw [← accesses_append]
  refine accesses_congr ?_
  rw [collect_binary, collect_append]
  rfl

theorem accesses_parens {p : Parens} :
    Accesses P [(Expr.parens p).outline] ↔ Accesses P [p.inner.outline] :=
  accesses_congr (collect_parens _ p)

/-! ### Types -/

mutual

theorem collect_typeName : (t : TypeName) → collect Node.access? [t.outline] = []
  | ⟨_, _, _, none, _⟩ => rfl
  | ⟨_, _, _, some args, _⟩ => by
    rw [TypeName.outline, collect_node, collect_typeArguments args]
    rfl

theorem collect_typeArguments : (a : TypeArguments) → collect Node.access? a.outline = []
  | ⟨_, ⟨_, items, _⟩⟩ => collect_typeNames items

theorem collect_typeNames :
    (ps : List (Padded TypeName)) → collect Node.access? (TypeName.outlineAll ps) = []
  | [] => rfl
  | ⟨t, _⟩ :: rest => by
    rw [TypeName.outlineAll, collect_cons, collect_typeName t, collect_typeNames rest]
    rfl

end

theorem accesses_create {c : Creation} :
    Accesses P [(Expr.create c).outline] ↔ Accesses P (Expr.outlineAll c.args.items) := by
  refine accesses_congr ?_
  rw [collect_create, collect_typeName]
  rfl

/-! ### Statements and declarations -/

theorem collect_markers (modifiers : List Ident) :
    collect Node.access? (outlineMarkers modifiers) = [] := by
  rw [outlineMarkers]
  induction modifiers.filter Ident.isMarker with
  | nil => rfl
  | cons i is ih =>
    rw [List.map_cons, collect_cons, ih]
    rfl

theorem accesses_var {v : Variable} :
    Accesses P v.outlines ↔ Accesses P (v.value.map (·.value.outline)).toList := by
  refine accesses_congr ?_
  rw [Variable.outlines, collect_append, collect_cons, collect_markers, collect_typeName]
  rfl

theorem accesses_block {b : Block} :
    Accesses P [b.outline] ↔ Accesses P (Stmt.outlineAll b.statements) :=
  accesses_congr (collect_block _ b)

theorem accesses_field {v : Variable} :
    Accesses P [(Member.field v).outline] ↔ Accesses P v.outlines :=
  accesses_congr (collect_node _ _ _)

/-- In front of the body of a method there are no accesses. -/
theorem collect_methodHeader (m : Method) :
    collect Node.access? (outlineMarkers m.modifiers ++ (m.returnType.map TypeName.outline).toList
      ++ m.params.items.flatMap (·.elem.outlines)) = [] := by
  have hparams (ps : List (Padded Param)) :
      collect Node.access? (ps.flatMap (·.elem.outlines)) = [] := by
    induction ps with
    | nil => rfl
    | cons p ps ih =>
      rw [List.flatMap_cons, collect_append, ih, Param.outlines, collect_append, collect_markers,
        collect_typeName]
      rfl
  have htype (o : Option TypeName) :
      collect Node.access? (o.map TypeName.outline).toList = [] := by
    cases o with
    | none => rfl
    | some t => exact collect_typeName t
  rw [collect_append, collect_append, collect_markers, hparams, htype]
  rfl

theorem accesses_method {m : Method} : Accesses P [m.outline] ↔ Accesses P m.body.outlines := by
  refine accesses_congr ?_
  rw [Method.outline, collect_node, collect_append, collect_methodHeader]
  rfl

/-- In front of the members of a type there are no accesses. -/
theorem collect_header (modifiers : List Ident) (typeParams : Option TypeArguments)
    (extending implementing : Option TypeClause) :
    collect Node.access? (outlineHeader modifiers typeParams extending implementing) = [] := by
  have hclause (o : Option TypeClause) :
      collect Node.access? (o.toList.flatMap TypeClause.outlines) = [] := by
    cases o with
    | none => rfl
    | some c =>
      rw [Option.toList_some, List.flatMap_singleton]
      exact collect_typeNames c.types
  have hparams (o : Option TypeArguments) :
      collect Node.access? (o.toList.flatMap TypeArguments.outline) = [] := by
    cases o with
    | none => rfl
    | some a =>
      rw [Option.toList_some, List.flatMap_singleton]
      exact collect_typeArguments a
  rw [outlineHeader, collect_append, collect_append, collect_append, collect_markers, hparams,
    hclause, hclause]
  rfl

theorem accesses_typeDecl {d : TypeDecl} :
    Accesses P [d.outline] ↔ Accesses P (Member.outlineAll d.body.members) := by
  refine accesses_congr ?_
  rw [collect_typeDecl, collect_header]
  rfl

/-- The imports of a module have no accesses. -/
theorem accesses_module {m : Module} :
    Accesses P [m.outline] ↔ Accesses P (m.types.map TypeDecl.outline) := by
  have himports (is : List Import) :
      collect Node.access? (is.map fun i => .leaf (.importDecl i)) = [] := by
    induction is with
    | nil => rfl
    | cons i is ih =>
      rw [List.map_cons, collect_cons, collect_leaf, ih]
      rfl
  refine accesses_congr ?_
  rw [Module.outline, collect_node, collect_append, himports]
  rfl

/-! ### Accesses without trivia -/

/-- No trivia surrounds the dot of an access at a node of the outlines. -/
def Tight (os : List Outline) : Prop :=
  ∀ a ∈ collect Node.access? os, a.dot = "" ∧ a.name.lead = ""

theorem tight_of_collect {os : List Outline} (h : collect Node.access? os = []) : Tight os :=
  accesses_of_collect h

theorem tight_append {os ps : List Outline} : Tight (os ++ ps) ↔ Tight os ∧ Tight ps :=
  accesses_append

theorem tight_cons {o : Outline} {os : List Outline} :
    Tight (o :: os) ↔ Tight [o] ∧ Tight os := accesses_cons

theorem tight_access {a : FieldAccess} : Tight [(Expr.access a).outline] ↔
    (a.dot = "" ∧ a.name.lead = "") ∧ Tight [a.target.outline] := accesses_access

theorem tight_call {c : MethodCall} : Tight [(Expr.call c).outline] ↔
    Tight (c.target.map Expr.outline).toList ∧ Tight (Expr.outlineAll c.args.items) :=
  accesses_call

theorem tight_binary {b : Binary} : Tight [(Expr.binary b).outline] ↔
    Tight [b.left.outline] ∧ Tight [b.right.outline] := accesses_binary

theorem tight_parens {p : Parens} :
    Tight [(Expr.parens p).outline] ↔ Tight [p.inner.outline] := accesses_parens

theorem tight_create {c : Creation} :
    Tight [(Expr.create c).outline] ↔ Tight (Expr.outlineAll c.args.items) := accesses_create

theorem tight_var {v : Variable} :
    Tight v.outlines ↔ Tight (v.value.map (·.value.outline)).toList := accesses_var

theorem tight_block {b : Block} : Tight [b.outline] ↔ Tight (Stmt.outlineAll b.statements) :=
  accesses_block

theorem tight_field {v : Variable} : Tight [(Member.field v).outline] ↔ Tight v.outlines :=
  accesses_field

theorem tight_method {m : Method} : Tight [m.outline] ↔ Tight m.body.outlines := accesses_method

theorem tight_typeDecl {d : TypeDecl} :
    Tight [d.outline] ↔ Tight (Member.outlineAll d.body.members) := accesses_typeDecl

theorem tight_module {m : Module} :
    Tight [m.outline] ↔ Tight (m.types.map TypeDecl.outline) := accesses_module

/-- Nothing is known of the owner of an access at a node of the outlines. -/
def Ownerless : List Outline → Prop := Accesses (·.owner = none)

end Outline

/-! ### What can be read -/

open Outline (Ownerless)

theorem Outline.AllWellFormed.ownerless {os : List Outline} (h : AllWellFormed os) : Ownerless os := by
  intro a ha
  obtain ⟨n, hn, hfound⟩ := List.mem_filterMap.mp ha
  cases n with
  | access b =>
    obtain rfl := Option.some.inj hfound
    obtain ⟨_, hwf⟩ := h _ hn
    obtain ⟨_, _, _, _, _⟩ := b
    exact hwf.2.2.2
  | _ => cases hfound

/-- **What can be read says nothing about the owners of accesses.** -/
theorem Module.ownerless {m : Module} (h : m.WellFormed) :
    Ownerless (m.types.map TypeDecl.outline) :=
  Outline.accesses_module.mp (Module.nodes_wellFormed h).ownerless

end Migration
