import Mathlib.Data.List.Basic
import Mathlib.Logic.Relation
import Migration.Proofs.Traversal.Nodes
import Migration.Proofs.Tree.Names

/-!
# Fragments of a module

What stands directly inside what is written down once more here (`Fragment.parts`), a row for each kind
of fragment and in it an entry for each field that can hold code, without a word about visitors. A walk
comes to a fragment with its own nodes around those of the fragments directly inside it
(`Fragment.outlines_eq`), and so to everything that stands inside it at any depth, and to nothing else
(`Fragment.mem_preorderAll_outlines`).

The used names are therefore the first segments of the type names, of the expression names and of the
annotations anywhere in the code (`Module.mem_usedNamesExcept_iff`). An annotation that the grammar
reads is its own first segment (`Module.WellFormed.head_markerName`).
-/

namespace Migration

/-- A part of the code of a module, with the kind of place where it stands. -/
inductive Fragment where
  | typeDecl (d : TypeDecl)
  | modifier (i : Ident)
  | typeName (t : TypeName)
  | field (v : Variable)
  | var (v : Variable)
  | method (m : Method)
  | param (p : Param)
  | block (b : Block)
  | stmt (s : Stmt)
  | expr (e : Expr)

namespace Fragment

/-! ### What stands directly inside what -/

def ofMember : Member → Fragment
  | .field v => .field v
  | .method m => .method m
  | .type d => .typeDecl d

def modifiers (is : List Ident) : List Fragment := is.map .modifier

def types (ps : List (Padded TypeName)) : List Fragment := ps.map fun p => .typeName p.elem

def exprs (ps : List (Padded Expr)) : List Fragment := ps.map fun p => .expr p.elem

/-- The fragments directly inside a fragment, one row for each field that can hold code. -/
def parts : Fragment → List Fragment
  | .typeDecl d =>
    modifiers d.modifiers
      ++ types (d.typeParams.toList.flatMap (·.list.items))
      ++ types (d.extending.toList.flatMap (·.types))
      ++ types (d.implementing.toList.flatMap (·.types))
      ++ d.body.members.map ofMember
  | .modifier _ => []
  | .typeName t => types (t.args.toList.flatMap (·.list.items))
  | .field v => [.var v]
  | .var v =>
    modifiers v.modifiers ++ .typeName v.type :: v.value.toList.map fun i => .expr i.value
  | .method m =>
    modifiers m.modifiers ++ m.returnType.toList.map .typeName
      ++ m.params.items.map (fun p => .param p.elem)
      ++ match m.body with
        | .block b => [.block b]
        | .absent _ => []
  | .param p => modifiers p.modifiers ++ [.typeName p.type]
  | .block b => b.statements.map .stmt
  | .stmt (.expr s) => [.expr s.expr]
  | .stmt (.localVar v) => [.var v]
  | .stmt (.ret s) => s.value.toList.map .expr
  | .stmt (.block b) => [.block b]
  | .expr (.name _) => []
  | .expr (.access a) => [.expr a.target]
  | .expr (.call c) => c.target.toList.map .expr ++ exprs c.args.items
  | .expr (.create c) => .typeName c.type :: exprs c.args.items
  | .expr (.literal _) => []
  | .expr (.binary b) => [.expr b.left, .expr b.right]
  | .expr (.parens p) => [.expr p.inner]

/-- A fragment stands inside another, or is it. -/
def Within : Fragment → Fragment → Prop := Relation.ReflTransGen fun f q => q ∈ f.parts

/-! ### The outline of a fragment -/

/-- How a walk comes to a fragment. -/
def outlines : Fragment → List Outline
  | .typeDecl d => [d.outline]
  | .modifier i => outlineMarkers [i]
  | .typeName t => [t.outline]
  | .field v => [.node (.field v) v.outlines]
  | .var v => v.outlines
  | .method m => [m.outline]
  | .param p => p.outlines
  | .block b => [b.outline]
  | .stmt s => s.outlines
  | .expr e => [e.outline]

/-- The nodes that are visited for the fragment itself, outermost first. -/
def nodes : Fragment → List Node
  | .typeDecl d => [.typeDecl d]
  | .modifier i => if i.isMarker then [.marker i] else []
  | .typeName t => [.typeName t]
  | .field v => [.field v]
  | .var _ => []
  | .method m => [.method m]
  | .param _ => []
  | .block b => [.block b]
  | .stmt _ => []
  | .expr (.name i) => [.expr (.name i), .nameExpr i]
  | .expr (.access a) => [.expr (.access a), .access a]
  | .expr (.call c) => [.expr (.call c), .call c]
  | .expr (.create c) => [.expr (.create c), .creation c]
  | .expr e => [.expr e]

/-- Nodes inside each other, the last with `below` below it. -/
def nest (below : List Outline) : List Node → List Outline
  | [] => below
  | n :: ns => [.node n (nest below ns)]

open Outline (preorderAll)

theorem preorderAll_nest (below : List Outline) (ns : List Node) :
    preorderAll (nest below ns) = ns ++ preorderAll below := by
  induction ns with
  | nil => rfl
  | cons n ns ih =>
    rw [nest, preorderAll, preorderAll, Outline.preorder, ih, List.append_nil, List.cons_append]

/-- The outlines of several fragments. -/
def outlinesAll (fs : List Fragment) : List Outline := fs.flatMap outlines

theorem outlinesAll_append (fs gs : List Fragment) :
    outlinesAll (fs ++ gs) = outlinesAll fs ++ outlinesAll gs := List.flatMap_append

theorem outlinesAll_cons (f : Fragment) (fs : List Fragment) :
    outlinesAll (f :: fs) = f.outlines ++ outlinesAll fs := List.flatMap_cons

theorem outlinesAll_singleton (f : Fragment) : outlinesAll [f] = f.outlines :=
  List.flatMap_singleton ..

theorem outlinesAll_modifiers (is : List Ident) :
    outlinesAll (modifiers is) = outlineMarkers is := by
  induction is with
  | nil => rfl
  | cons i is ih =>
    rw [modifiers, List.map_cons, outlinesAll_cons, ← modifiers, ih]
    simp only [outlines, outlineMarkers, ← List.map_append, ← List.filter_append,
      List.singleton_append]

theorem outlinesAll_types (ps : List (Padded TypeName)) :
    outlinesAll (types ps) = TypeName.outlineAll ps := by
  induction ps with
  | nil => rfl
  | cons p ps ih =>
    rw [types, List.map_cons, outlinesAll_cons, ← types, ih]
    rfl

theorem outlinesAll_exprs (ps : List (Padded Expr)) :
    outlinesAll (exprs ps) = Expr.outlineAll ps := by
  induction ps with
  | nil => rfl
  | cons p ps ih =>
    rw [exprs, List.map_cons, outlinesAll_cons, ← exprs, ih]
    rfl

theorem outlinesAll_members (ms : List Member) :
    outlinesAll (ms.map ofMember) = Member.outlineAll ms := by
  induction ms with
  | nil => rfl
  | cons m ms ih =>
    rw [List.map_cons, outlinesAll_cons, ih, Member.outlineAll]
    cases m <;> rfl

theorem outlinesAll_params (ps : List (Padded Param)) :
    outlinesAll (ps.map fun p => .param p.elem) = ps.flatMap (·.elem.outlines) := by
  rw [outlinesAll, List.flatMap_map]
  rfl

theorem outlinesAll_stmts (ss : List Stmt) :
    outlinesAll (ss.map .stmt) = Stmt.outlineAll ss := by
  induction ss with
  | nil => rfl
  | cons s ss ih =>
    rw [List.map_cons, outlinesAll_cons, ih, Stmt.outlineAll]
    rfl

theorem outlineAll_typeArguments (args : Option TypeArguments) :
    TypeName.outlineAll (args.toList.flatMap (·.list.items))
      = args.toList.flatMap TypeArguments.outline := by
  match args with
  | none => rfl
  | some ⟨_, ⟨_, _, _⟩⟩ =>
    simp only [Option.toList_some, List.flatMap_singleton]
    rfl

theorem outlinesAll_optional {α : Type} {g : α → Fragment} {o : α → Outline}
    (h : ∀ a, (g a).outlines = [o a]) (x : Option α) :
    outlinesAll (x.toList.map g) = (x.map o).toList := by
  cases x with
  | none => rfl
  | some a => exact (outlinesAll_singleton _).trans (h a)

/-- **A fragment is visited with its own nodes around those of the fragments directly inside it.** -/
theorem outlines_eq (f : Fragment) : f.outlines = nest (outlinesAll f.parts) f.nodes := by
  cases f with
  | typeDecl d =>
    obtain ⟨id, lead, mods, kindLead, kind, name, params, extending, implementing, body⟩ := d
    obtain ⟨bodyId, bodyLead, members, close⟩ := body
    have hclause (c : Option TypeClause) : TypeName.outlineAll (c.toList.flatMap (·.types))
        = c.toList.flatMap TypeClause.outlines := by
      cases c <;> simp [TypeName.outlineAll, TypeClause.outlines]
    simp only [parts, outlinesAll_append, outlinesAll_modifiers, outlinesAll_types,
      outlinesAll_members, outlineAll_typeArguments, hclause]
    rfl
  | modifier i =>
    cases hi : i.isMarker <;> simp [outlines, outlineMarkers, nodes, hi, nest, parts, outlinesAll,
      Outline.leaf]
  | typeName t =>
    obtain ⟨id, lead, name, args, resolved⟩ := t
    rw [parts, outlinesAll_types, outlineAll_typeArguments]
    cases args with
    | none => rfl
    | some args =>
      simp only [Option.toList_some, List.flatMap_singleton]
      rfl
  | field v => simp only [parts, outlinesAll_singleton]; rfl
  | var v =>
    rw [parts, outlinesAll_append, outlinesAll_modifiers, outlinesAll_cons,
      outlinesAll_optional (o := fun i => i.value.outline) (fun _ => rfl)]
    rfl
  | method m =>
    have hbody : outlinesAll (match m.body with
        | .block b => [.block b]
        | .absent _ => []) = m.body.outlines := by
      cases m.body <;> rfl
    rw [parts, outlinesAll_append, outlinesAll_append, outlinesAll_append, outlinesAll_modifiers,
      outlinesAll_params, hbody, outlinesAll_optional (o := TypeName.outline) (fun _ => rfl)]
    rfl
  | param p =>
    rw [parts, outlinesAll_append, outlinesAll_modifiers, outlinesAll_singleton]
    rfl
  | block b =>
    obtain ⟨id, lead, statements, close⟩ := b
    rw [parts, outlinesAll_stmts]
    rfl
  | stmt s =>
    cases s with
    | ret s =>
      rw [parts, outlinesAll_optional (o := Expr.outline) (fun _ => rfl)]
      rfl
    | _ => simp only [parts, outlinesAll_singleton]; rfl
  | expr e =>
    cases e with
    | name _ | literal _ => rfl
    | access e | binary e =>
      obtain ⟨_, _, _, _, _⟩ := e
      rfl
    | parens e =>
      obtain ⟨_, _, _, _⟩ := e
      rfl
    | call e =>
      obtain ⟨_, target, _, _, ⟨_, _, _⟩⟩ := e
      rw [parts, outlinesAll_append, outlinesAll_exprs]
      cases target <;> rfl
    | create e =>
      obtain ⟨_, _, _, ⟨_, _, _⟩⟩ := e
      rw [parts, outlinesAll_cons, outlinesAll_exprs]
      rfl

/-! ### Everything is visited -/

/-- Statements, variables and parameters are no nodes of their own. What is directly inside one of them
has a smaller rank. -/
def rank : Fragment → Nat
  | .stmt _ => 2
  | .var _ | .param _ => 1
  | _ => 0

theorem rank_lt_of_nodes_eq_nil {f q : Fragment} (hq : q ∈ f.parts) (hf : f.nodes = []) :
    q.rank < f.rank := by
  cases f with
  | modifier i => cases hq
  | var v =>
    rcases List.mem_append.mp hq with hq | hq
    · obtain ⟨i, -, rfl⟩ := List.mem_map.mp hq
      exact Nat.zero_lt_one
    · rcases List.mem_cons.mp hq with rfl | hq
      · exact Nat.zero_lt_one
      · obtain ⟨i, -, rfl⟩ := List.mem_map.mp hq
        exact Nat.zero_lt_one
  | param p =>
    rcases List.mem_append.mp hq with hq | hq
    · obtain ⟨i, -, rfl⟩ := List.mem_map.mp hq
      exact Nat.zero_lt_one
    · cases List.mem_singleton.mp hq
      exact Nat.zero_lt_one
  | stmt s =>
    cases s with
    | expr s => cases List.mem_singleton.mp hq; exact Nat.zero_lt_two
    | localVar v => cases List.mem_singleton.mp hq; exact Nat.one_lt_two
    | ret s =>
      obtain ⟨e, -, rfl⟩ := List.mem_map.mp hq
      exact Nat.zero_lt_two
    | block b => cases List.mem_singleton.mp hq; exact Nat.zero_lt_two
  | expr e => cases e <;> cases hf
  | _ => cases hf

/-- The nodes of a fragment: its own, then those of the fragments directly inside it. -/
theorem preorderAll_outlines (f : Fragment) :
    preorderAll f.outlines = f.nodes ++ f.parts.flatMap fun q => preorderAll q.outlines := by
  have hall (fs : List Fragment) :
      preorderAll (outlinesAll fs) = fs.flatMap fun q => preorderAll q.outlines := by
    induction fs with
    | nil => rfl
    | cons f fs ih =>
      rw [outlinesAll_cons, Outline.preorderAll_append, ih, List.flatMap_cons]
  rw [outlines_eq, preorderAll_nest, hall]

/-- A fragment has fewer nodes than the one directly around it, or as many and a smaller rank. -/
theorem lt_of_mem_parts {f q : Fragment} (hq : q ∈ f.parts) :
    (preorderAll q.outlines).length < (preorderAll f.outlines).length
      ∨ (preorderAll q.outlines).length = (preorderAll f.outlines).length ∧ q.rank < f.rank := by
  have hle : (preorderAll q.outlines).length
      ≤ (f.parts.flatMap fun q => preorderAll q.outlines).length := by
    obtain ⟨before, after, hsplit⟩ := List.append_of_mem hq
    rw [hsplit, List.flatMap_append, List.flatMap_cons, List.length_append, List.length_append]
    omega
  rw [preorderAll_outlines f, List.length_append]
  cases hnodes : f.nodes with
  | nil =>
    have hrank := rank_lt_of_nodes_eq_nil hq hnodes
    rw [List.length_nil]
    omega
  | cons n ns =>
    rw [List.length_cons]
    omega

/-- **A walk over a fragment comes to every fragment inside it**, and to nothing else. -/
theorem mem_preorderAll_outlines (f : Fragment) (n : Node) :
    n ∈ preorderAll f.outlines ↔ ∃ q, f.Within q ∧ n ∈ q.nodes := by
  constructor
  · intro hn
    rw [preorderAll_outlines] at hn
    rcases List.mem_append.mp hn with hn | hn
    · exact ⟨f, .refl, hn⟩
    · obtain ⟨q, hq, hn⟩ := List.mem_flatMap.mp hn
      have hlt := lt_of_mem_parts hq
      obtain ⟨r, hr, hn⟩ := (mem_preorderAll_outlines q n).mp hn
      exact ⟨r, .head hq hr, hn⟩
  · rintro ⟨q, hfq, hn⟩
    induction hfq using Relation.ReflTransGen.head_induction_on with
    | refl =>
      rw [preorderAll_outlines]
      exact List.mem_append_left _ hn
    | head hq _ ih =>
      rw [preorderAll_outlines]
      exact List.mem_append_right _ (List.mem_flatMap.mpr ⟨_, hq, ih⟩)
termination_by ((preorderAll f.outlines).length, f.rank)
decreasing_by
  rcases hlt with hlt | ⟨heq, hlt⟩
  · exact Prod.Lex.left _ _ hlt
  · rw [heq]
    exact Prod.Lex.right _ hlt

end Fragment

/-! ### Used names -/

open Outline (preorderAll)

/-- A name stands at a type name, at an expression name or at an annotation. -/
theorem Node.exists_mention? {skip : List NodeId} {n : Node} {P : String → Prop} :
    (∃ name, n.mention? skip = some name ∧ P name) ↔
      (∃ t, n = .typeName t ∧ t.id ∉ skip ∧ P t.name)
        ∨ (∃ i, n = .nameExpr i ∧ i.id ∉ skip ∧ P i.name)
        ∨ ∃ i, n = .marker i ∧ P i.markerName := by
  cases n <;> simp [mention?, and_assoc]

namespace Fragment

theorem typeName_mem_nodes {f : Fragment} {t : TypeName} :
    .typeName t ∈ f.nodes ↔ f = .typeName t := by
  cases f with
  | modifier i => cases hi : i.isMarker <;> simp [nodes, hi]
  | expr e => cases e <;> simp [nodes]
  | _ => simp [nodes, eq_comm]

theorem nameExpr_mem_nodes {f : Fragment} {i : Ident} :
    .nameExpr i ∈ f.nodes ↔ f = .expr (.name i) := by
  cases f with
  | modifier j => cases hj : j.isMarker <;> simp [nodes, hj]
  | expr e => cases e <;> simp [nodes, eq_comm]
  | _ => simp [nodes]

theorem marker_mem_nodes {f : Fragment} {i : Ident} :
    .marker i ∈ f.nodes ↔ f = .modifier i ∧ i.isMarker = true := by
  cases f with
  | modifier j =>
    cases hj : j.isMarker
    · simp only [nodes, hj, Bool.false_eq_true, if_false, List.not_mem_nil, modifier.injEq, false_iff]
      rintro ⟨rfl, hi⟩
      rw [hj] at hi
      cases hi
    · simp only [nodes, hj, if_true, List.mem_singleton, Node.marker.injEq, modifier.injEq]
      constructor
      · rintro rfl
        exact ⟨rfl, hj⟩
      · exact fun h => h.1.symm
  | expr e => cases e <;> simp [nodes]
  | _ => simp [nodes]

end Fragment

namespace Module

/-- A fragment stands somewhere in the code of the module. -/
def Contains (m : Module) (f : Fragment) : Prop :=
  ∃ d ∈ m.types, (Fragment.typeDecl d).Within f

theorem mem_preorderAll_types {m : Module} {n : Node} :
    n ∈ preorderAll (m.types.map TypeDecl.outline) ↔ ∃ f, m.Contains f ∧ n ∈ f.nodes := by
  have hmem (ds : List TypeDecl) : n ∈ preorderAll (ds.map TypeDecl.outline)
      ↔ ∃ d ∈ ds, n ∈ preorderAll (Fragment.typeDecl d).outlines := by
    induction ds with
    | nil => simp [preorderAll]
    | cons d ds ih =>
      rw [List.map_cons, preorderAll, List.mem_append, ih, List.exists_mem_cons_iff,
        Fragment.outlines, preorderAll, preorderAll, List.append_nil]
  simp only [hmem, Fragment.mem_preorderAll_outlines, Contains]
  constructor
  · rintro ⟨d, hd, f, hf, hn⟩
    exact ⟨f, ⟨d, hd, hf⟩, hn⟩
  · rintro ⟨f, ⟨d, hd, hf⟩, hn⟩
    exact ⟨d, hd, f, hf, hn⟩

/-- **The used names are the first segments of the type names, of the expression names and of the
annotations anywhere in the code**, those numbered in `skip` apart. -/
theorem mem_usedNamesExcept_iff {m : Module} {skip : List NodeId} {h : String} :
    h ∈ (m.usedNamesExcept skip).toList ↔
      (h ≠ "" ∧ h ≠ "?")
        ∧ ((∃ t, m.Contains (.typeName t) ∧ t.id ∉ skip ∧ Name.head t.name = h)
          ∨ (∃ i, m.Contains (.expr (.name i)) ∧ i.id ∉ skip ∧ Name.head i.name = h)
          ∨ ∃ i, m.Contains (.modifier i) ∧ i.isMarker = true ∧ Name.head i.markerName = h) := by
  have hmentions : (∃ name ∈ Outline.mentions skip (m.types.map TypeDecl.outline), Name.head name = h)
      ↔ ∃ n ∈ preorderAll (m.types.map TypeDecl.outline),
          ∃ name, n.mention? skip = some name ∧ Name.head name = h := by
    simp only [Outline.mentions, Outline.collect, List.mem_filterMap]
    constructor
    · rintro ⟨name, ⟨n, hn, hname⟩, hhead⟩
      exact ⟨n, hn, name, hname, hhead⟩
    · rintro ⟨n, hn, name, hname, hhead⟩
      exact ⟨name, ⟨n, hn, hname⟩, hhead⟩
  rw [mem_usedNamesExcept, hmentions, and_congr_right_iff]
  intro _
  simp only [Node.exists_mention?, mem_preorderAll_types]
  constructor
  · rintro ⟨n, ⟨f, hf, hn⟩, ⟨t, rfl, ht⟩ | ⟨i, rfl, hi⟩ | ⟨i, rfl, hi⟩⟩
    · cases Fragment.typeName_mem_nodes.mp hn
      exact .inl ⟨t, hf, ht⟩
    · cases Fragment.nameExpr_mem_nodes.mp hn
      exact .inr (.inl ⟨i, hf, hi⟩)
    · obtain ⟨rfl, hmarker⟩ := Fragment.marker_mem_nodes.mp hn
      exact .inr (.inr ⟨i, hf, hmarker, hi⟩)
  · rintro (⟨t, hf, ht⟩ | ⟨i, hf, hi⟩ | ⟨i, hf, hmarker, hi⟩)
    · exact ⟨_, ⟨_, hf, Fragment.typeName_mem_nodes.mpr rfl⟩, .inl ⟨t, rfl, ht⟩⟩
    · exact ⟨_, ⟨_, hf, Fragment.nameExpr_mem_nodes.mpr rfl⟩, .inr (.inl ⟨i, rfl, hi⟩)⟩
    · exact ⟨_, ⟨_, hf, Fragment.marker_mem_nodes.mpr ⟨rfl, hmarker⟩⟩, .inr (.inr ⟨i, rfl, hi⟩)⟩

theorem exists_of_startsWord {cs : List Char} (h : Scan.startsWord cs = true) :
    ∃ c ∈ cs, Scan.isWordStart c = true := by
  cases cs with
  | nil => cases h
  | cons c cs =>
    by_cases hc : c = '@'
    · subst hc
      cases cs with
      | nil => cases h
      | cons d cs => exact ⟨d, by simp, h⟩
    · exact ⟨c, List.mem_cons_self, Scan.startsWord_cons cs hc ▸ h⟩

/-- The names of the annotations of a well-formed module are words, and so they are their own first
segments. -/
theorem WellFormed.head_markerName {m : Module} (hm : m.WellFormed) {i : Ident}
    (hi : m.Contains (.modifier i)) (hmarker : i.isMarker = true) :
    Name.head i.markerName = i.markerName ∧ i.markerName ≠ "" ∧ i.markerName ≠ "?" := by
  have hnode : Node.marker i ∈ preorderAll (m.types.map TypeDecl.outline) :=
    mem_preorderAll_types.mpr ⟨_, hi, Fragment.marker_mem_nodes.mpr ⟨rfl, hmarker⟩⟩
  have hok : isModifierText i.name = true :=
    Outline.allWellFormed_map (fun d hd => d.nodes_wellFormed (hm.types d hd)) _ hnode
  have hword : Scan.isWordText i.name.toList = true := (Bool.and_eq_true_iff.mp hok).1
  have hmem {c : Char} (hc : c ∉ i.name.toList) : c ∉ i.markerName.toList := by
    rw [Ident.markerName, String.toList_ofList]
    exact fun h => hc ((List.dropWhile_sublist _).subset h)
  have hdot : Name.Dotless i.markerName := hmem (dotless_of_isWordText hword)
  have hquestion : '?' ∉ i.markerName.toList :=
    hmem (not_mem_of_isWordText (by decide) (by decide) (by decide) hword)
  refine ⟨Name.head_of_dotless hdot, ?_, ?_⟩
  · intro hempty
    have hall := congrArg String.toList hempty
    rw [Ident.markerName, String.toList_ofList, String.toList_empty, List.dropWhile_eq_nil_iff] at hall
    obtain ⟨c, hc, hstart⟩ := exists_of_startsWord (Bool.and_eq_true_iff.mp hword).1
    cases beq_iff_eq.mp (hall c hc)
    cases hstart
  · intro hq
    rw [hq] at hquestion
    exact hquestion (by decide)

end Module

end Migration
