import Migration.Proofs.Traversal.Depth
import Migration.Proofs.Traversal.Events
import Migration.Proofs.Traversal.Observed

/-!
# A pass and a walk see the same nodes

Walking and changing are two traversals, each with a case for every kind of node, and the imports of a
module rely on the first to see all names that the second may have touched. The hooks of a pass that
replaces nothing are therefore listed beside the nodes of the outline: `Reports nodes p` says that `p`
leaves its part alone and asks about just these nodes, in this order. A part of a module reports the
nodes that have a hook, of those in its outline.

Main result: `transform_asks_entered`.
-/

namespace Migration

/-- The node that the hook was asked about. -/
def HookCall.node : HookCall → Node
  | .typeDecl d _ => .typeDecl d
  | .typeName t _ => .typeName t
  | .nameExpr i _ => .nameExpr i
  | .access a _ => .access a
  | .call c _ => .call c

/-- There is a hook for nodes of this kind. -/
def Node.hasHook : Node → Bool
  | .typeDecl _ => true
  | .typeName _ => true
  | .nameExpr _ => true
  | .access _ => true
  | .call _ => true
  | _ => false

/-- The hooks answer nothing, whatever they do to the state. -/
structure Hooks.ReplacesNothing {σ : Type} (h : Hooks σ) : Prop where
  typeDecl (d : TypeDecl) (s : σ) : (h.typeDecl d s).1 = .none
  typeName (t : TypeName) (s : σ) : (h.typeName t s).1 = .none
  nameExpr (i : Ident) (s : σ) : (h.nameExpr i s).1 = .none
  access (a : FieldAccess) (s : σ) : (h.access a s).1 = .none
  call (c : MethodCall) (s : σ) : (h.call c s).1 = .none

/-! ### Nodes with a hook -/

namespace Outline

/-- The nodes of several outlines that have a hook, in preorder. -/
def hooked (os : List Outline) : List Node := collect (Option.guard Node.hasHook) os

theorem hooked_eq_filter (os : List Outline) : hooked os = (preorderAll os).filter Node.hasHook := by
  rw [hooked, collect, List.filterMap_eq_filter]

theorem hooked_append (os ps : List Outline) : hooked (os ++ ps) = hooked os ++ hooked ps :=
  collect_append _ os ps

theorem hooked_cons (o : Outline) (os : List Outline) : hooked (o :: os) = hooked [o] ++ hooked os :=
  collect_cons _ o os

/-- A node that has a hook, with those below it. -/
theorem hooked_node {n : Node} (hn : n.hasHook = true) (below : List Outline) :
    hooked [.node n below] = n :: hooked below := by
  rw [hooked, collect_node, Option.guard, if_pos hn]
  rfl

/-- A node without a hook, with those below it. -/
theorem hooked_node_of_not {n : Node} (hn : n.hasHook = false) (below : List Outline) :
    hooked [.node n below] = hooked below := by
  rw [hooked, collect_node, Option.guard, if_neg (Bool.eq_false_iff.mp hn)]
  rfl

theorem hooked_flatMap {α : Type} (f : α → List Outline) (xs : List α) :
    hooked (xs.flatMap f) = xs.flatMap fun x => hooked (f x) := by
  induction xs with
  | nil => rfl
  | cons x xs ih => rw [List.flatMap_cons, hooked_append, ih, List.flatMap_cons]

theorem hooked_map {α : Type} (f : α → Outline) (xs : List α) :
    hooked (xs.map f) = xs.flatMap fun x => hooked [f x] := by
  rw [List.map_eq_flatMap, hooked_flatMap]

theorem hooked_toList {α : Type} (f : α → Outline) (o : Option α) :
    hooked (o.map f).toList = o.toList.flatMap fun x => hooked [f x] := by
  rw [← hooked_map]
  cases o <;> rfl

theorem hooked_markers (is : List Ident) : hooked (outlineMarkers is) = [] := by
  rw [outlineMarkers, hooked_map, List.flatMap_eq_nil_iff]
  exact fun i _ => hooked_node_of_not rfl []

end Outline

open Outline (hooked hooked_append hooked_cons hooked_node hooked_node_of_not hooked_toList)

theorem TypeName.hooked_outlineAll (ps : List (Padded TypeName)) :
    hooked (TypeName.outlineAll ps) = ps.flatMap fun p => hooked [p.elem.outline] := by
  induction ps with
  | nil => rfl
  | cons p rest ih =>
    obtain ⟨t, after⟩ := p
    rw [outlineAll, hooked_cons, ih, List.flatMap_cons]

theorem Expr.hooked_outlineAll (ps : List (Padded Expr)) :
    hooked (Expr.outlineAll ps) = ps.flatMap fun p => hooked [p.elem.outline] := by
  induction ps with
  | nil => rfl
  | cons p rest ih =>
    obtain ⟨e, after⟩ := p
    rw [outlineAll, hooked_cons, ih, List.flatMap_cons]

theorem Stmt.hooked_outlineAll (ss : List Stmt) :
    hooked (Stmt.outlineAll ss) = ss.flatMap fun x => hooked x.outlines := by
  induction ss with
  | nil => rfl
  | cons x rest ih => rw [outlineAll, hooked_append, ih, List.flatMap_cons]

theorem Member.hooked_outlineAll (ms : List Member) :
    hooked (Member.outlineAll ms) = ms.flatMap fun x => hooked [x.outline] := by
  induction ms with
  | nil => rfl
  | cons x rest ih => rw [outlineAll, hooked_cons, ih, List.flatMap_cons]

namespace Pass

/-! ### What a pass reports -/

variable {σ α β : Type}

/-- Every run of the pass that has a result leaves the part alone, and the calls that it adds to the list
are about just these nodes. -/
def Reports (nodes : List Node) (p : Pass (σ × List HookCall) (Option α)) : Prop :=
  ∀ s calls r s' calls', p (s, calls) = some (r, s', calls') →
    r = none ∧ calls'.map HookCall.node = calls.map HookCall.node ++ nodes

namespace Reports

theorem pure : Reports [] (pure none : Pass (σ × List HookCall) (Option α)) := by
  intro s calls r s' calls' hrun
  obtain ⟨rfl, hsame⟩ := pure_eq_some.mp hrun
  cases hsame
  exact ⟨rfl, (List.append_nil _).symm⟩

theorem bind {ns ns' : List Node} {p : Pass (σ × List HookCall) (Option α)}
    {k : Option α → Pass (σ × List HookCall) (Option β)} (hp : Reports ns p)
    (hk : Reports ns' (k none)) : Reports (ns ++ ns') (p >>= k) := by
  intro s calls r s' calls' hrun
  obtain ⟨a, ⟨s₁, calls₁⟩, hfirst, hrest⟩ := bind_eq_some.mp hrun
  obtain ⟨rfl, hcalls₁⟩ := hp s calls a s₁ calls₁ hfirst
  obtain ⟨rfl, hcalls'⟩ := hk s₁ calls₁ r s' calls' hrest
  exact ⟨rfl, by rw [hcalls', hcalls₁, List.append_assoc]⟩

/-- A last step that asks nothing. -/
theorem andThen {ns : List Node} {p : Pass (σ × List HookCall) (Option α)}
    {k : Option α → Pass (σ × List HookCall) (Option β)} (hp : Reports ns p)
    (hk : Reports [] (k none)) : Reports ns (p >>= k) := by
  rw [← List.append_nil ns]
  exact hp.bind hk

theorem map {ns : List Node} {p : Pass (σ × List HookCall) (Option α)} (hp : Reports ns p)
    (g : α → β) : Reports ns (do return (← p).map g) := hp.andThen .pure

/-- A hook that replaces nothing. -/
theorem ask {hook : σ → Option α × σ} (hhook : ∀ s, (hook s).1 = none) (call : Option α → HookCall) :
    Reports [(call none).node]
      (Pass.ask (Hooks.observe (fun calls c => calls ++ [c]) call hook)) := by
  intro s calls r s' calls' hrun
  rw [Pass.ask, Hooks.observe, hhook s] at hrun
  cases hrun
  exact ⟨rfl, List.map_append⟩

variable {f : α → Pass (σ × List HookCall) (Option α)} {nodes : α → List Node}

theorem changeEach (hf : ∀ x, Reports (nodes x) (f x)) (xs : List α) :
    Reports (xs.flatMap nodes) (changeEach f xs) := by
  induction xs with
  | nil => exact .pure
  | cons x xs ih => exact (hf x).bind (ih.andThen .pure)

theorem changeItems (hf : ∀ x, Reports (nodes x) (f x)) (ps : List (Padded α)) :
    Reports (ps.flatMap fun p => nodes p.elem) (changeItems f ps) := by
  refine Reports.changeEach (fun p => ?_) ps
  exact (hf p.elem).map _

theorem changeListing (hf : ∀ x, Reports (nodes x) (f x)) (l : Listing α) :
    Reports (l.items.flatMap fun p => nodes p.elem) (changeListing f l) :=
  (Reports.changeItems hf l.items).map _

theorem changeOption (hf : ∀ x, Reports (nodes x) (f x)) (o : Option α) :
    Reports (o.toList.flatMap nodes) (changeOption f o) := by
  cases o with
  | none => exact .pure
  | some x =>
    rw [Option.toList_some, List.flatMap_singleton]
    exact (hf x).map _

theorem approx (nodes : α → List Node)
    {F : (α → Pass (σ × List HookCall) (Option α)) → α → Pass (σ × List HookCall) (Option α)}
    (hF : ∀ f, (∀ x, Reports (nodes x) (f x)) → ∀ x, Reports (nodes x) (F f x)) (n : Nat) (x : α) :
    Reports (nodes x) (approx F n x) := by
  induction n generalizing x with
  | zero => exact fun _ _ _ _ _ hrun => nomatch hrun
  | succ n ih => exact hF _ ih x

end Reports

/-! ### The nodes -/

section Nodes

variable {h : Hooks σ} (hh : h.ReplacesNothing) (depth : Nat)

theorem typeArgumentsOf_reports {f : TypeName → Pass (σ × List HookCall) (Option TypeName)}
    (hf : ∀ t, Reports (hooked [t.outline]) (f t)) (a : TypeArguments) :
    Reports (hooked a.outline) (typeArgumentsOf f a) := by
  obtain ⟨id, lead, items, close⟩ := a
  rw [TypeArguments.outline, TypeName.hooked_outlineAll]
  exact (Reports.changeListing hf ⟨lead, items, close⟩).map _

theorem hooked_typeName (t : TypeName) :
    hooked [t.outline] = .typeName t :: t.args.toList.flatMap fun a => hooked a.outline := by
  obtain ⟨id, lead, name, args, resolved⟩ := t
  cases args with
  | none => exact hooked_node rfl []
  | some a =>
    rw [TypeName.outline, hooked_node rfl, Option.toList_some, List.flatMap_singleton]

include hh

theorem typeName_reports (t : TypeName) :
    Reports (hooked [t.outline]) (typeName h.logged depth t) := by
  refine Reports.approx (fun t => hooked [t.outline]) (fun f hf t => ?_) depth t
  rw [hooked_typeName]
  have hargs := Reports.changeOption (typeArgumentsOf_reports hf) t.args
  exact (Reports.ask (hh.typeName t) (.typeName t)).bind ((hargs.map t.withArgs).andThen .pure)

theorem typeClause_reports (c : TypeClause) :
    Reports (hooked c.outlines) (typeClause h.logged depth c) := by
  rw [TypeClause.outlines, TypeName.hooked_outlineAll]
  exact (Reports.changeItems (typeName_reports hh depth) c.types).map _

/-- An expression is listed when it has a hook of its own, before what is below it. -/
theorem exprOf_reports {f : Expr → Pass (σ × List HookCall) (Option Expr)}
    (hf : ∀ e, Reports (hooked [e.outline]) (f e)) (e : Expr) :
    Reports (hooked [e.outline]) (exprOf h.logged depth f e) := by
  cases e with
  | name i =>
    rw [Expr.outline, hooked_node_of_not rfl]
    exact (Reports.ask (hh.nameExpr i) (.nameExpr i)).andThen (Reports.pure.andThen .pure)
  | literal l =>
    rw [Expr.outline, Outline.leaf, hooked_node_of_not rfl]
    exact Reports.pure.andThen (Reports.pure.andThen .pure)
  | access a =>
    obtain ⟨id, target, dot, member, owner⟩ := a
    rw [Expr.outline, hooked_node_of_not rfl, hooked_node rfl]
    exact (Reports.ask (hh.access _) (.access _)).bind (((hf target).map _).andThen .pure)
  | call c =>
    obtain ⟨id, target, dot, member, opened, items, closed⟩ := c
    have hbelow : hooked [(Expr.call ⟨id, target, dot, member, opened, items, closed⟩).outline]
        = [.call ⟨id, target, dot, member, opened, items, closed⟩]
          ++ (target.toList.flatMap (fun e => hooked [e.outline])
            ++ items.flatMap fun p => hooked [p.elem.outline]) := by
      cases target with
      | none =>
        rw [Expr.outline, hooked_node_of_not rfl, hooked_node rfl, Expr.hooked_outlineAll]
        rfl
      | some target =>
        rw [Expr.outline, hooked_node_of_not rfl, hooked_node rfl, hooked_cons,
          Expr.hooked_outlineAll, Option.toList_some, List.flatMap_singleton]
        rfl
    rw [hbelow]
    have htarget := Reports.changeOption hf target
    have hargs := Reports.changeListing hf ⟨opened, items, closed⟩
    refine (Reports.ask (hh.call _) (.call _)).bind (Reports.andThen ?_ .pure)
    exact htarget.bind (hargs.andThen .pure)
  | create c =>
    obtain ⟨id, lead, type, opened, items, closed⟩ := c
    rw [Expr.outline, hooked_node_of_not rfl, hooked_node_of_not rfl, hooked_cons,
      Expr.hooked_outlineAll]
    have htype := typeName_reports hh depth type
    have hargs := Reports.changeListing hf ⟨opened, items, closed⟩
    refine Reports.pure.bind (Reports.andThen ?_ .pure)
    exact htype.bind (hargs.andThen .pure)
  | binary b =>
    obtain ⟨id, left, opLead, op, right⟩ := b
    rw [Expr.outline, hooked_node_of_not rfl, hooked_cons]
    refine Reports.pure.bind (Reports.andThen ?_ .pure)
    exact (hf left).bind ((hf right).andThen .pure)
  | parens p =>
    obtain ⟨id, lead, inner, close⟩ := p
    rw [Expr.outline, hooked_node_of_not rfl]
    exact Reports.pure.bind (((hf inner).map _).andThen .pure)

theorem expr_reports (e : Expr) : Reports (hooked [e.outline]) (expr h.logged depth e) :=
  Reports.approx (fun e => hooked [e.outline]) (fun _ => exprOf_reports hh depth) depth e

theorem initializer_reports (i : Initializer) :
    Reports (hooked [i.value.outline]) (initializer h.logged depth i) :=
  (expr_reports hh depth i.value).map _

theorem varDecl_reports (v : Variable) :
    Reports (hooked v.outlines) (varDecl h.logged depth v) := by
  rw [Variable.outlines, hooked_append, Outline.hooked_markers, hooked_cons,
    hooked_toList (fun i : Initializer => i.value.outline)]
  have hvalue := Reports.changeOption (initializer_reports hh depth) v.value
  exact (typeName_reports hh depth v.type).bind (hvalue.andThen .pure)

theorem stmtOf_reports {f : Block → Pass (σ × List HookCall) (Option Block)}
    (hf : ∀ b, Reports (hooked [b.outline]) (f b)) (x : Stmt) :
    Reports (hooked x.outlines) (stmtOf h.logged depth f x) := by
  cases x with
  | expr x => exact (expr_reports hh depth x.expr).map _
  | localVar v => exact (varDecl_reports hh depth v).map _
  | ret x =>
    rw [Stmt.outlines, hooked_toList]
    exact (Reports.changeOption (expr_reports hh depth) x.value).map _
  | block b => exact (hf b).map _

theorem block_reports (b : Block) : Reports (hooked [b.outline]) (block h.logged depth b) := by
  refine Reports.approx (fun b => hooked [b.outline]) (fun f hf b => ?_) depth b
  obtain ⟨id, lead, statements, close⟩ := b
  rw [Block.outline, hooked_node_of_not rfl, Stmt.hooked_outlineAll]
  exact (Reports.changeEach (stmtOf_reports hh depth hf) statements).map _

theorem methodBody_reports (b : MethodBody) :
    Reports (hooked b.outlines) (methodBody h.logged depth b) := by
  cases b with
  | block b => exact (block_reports hh depth b).map _
  | absent semi => exact .pure

theorem param_reports (p : Param) : Reports (hooked p.outlines) (param h.logged depth p) := by
  rw [Param.outlines, hooked_append, Outline.hooked_markers]
  exact (typeName_reports hh depth p.type).map _

theorem method_reports (m : Method) : Reports (hooked [m.outline]) (method h.logged depth m) := by
  rw [Method.outline, hooked_node_of_not rfl, hooked_append, hooked_append, hooked_append,
    Outline.hooked_markers, hooked_toList, Outline.hooked_flatMap, List.nil_append, List.append_assoc]
  have htype := Reports.changeOption (typeName_reports hh depth) m.returnType
  have hparams := Reports.changeListing (param_reports hh depth) m.params
  exact htype.bind (hparams.bind ((methodBody_reports hh depth m.body).andThen .pure))

theorem memberOf_reports {f : TypeDecl → Pass (σ × List HookCall) (Option TypeDecl)}
    (hf : ∀ d, Reports (hooked [d.outline]) (f d)) (x : Member) :
    Reports (hooked [x.outline]) (memberOf h.logged depth f x) := by
  cases x with
  | field v =>
    rw [Member.outline, hooked_node_of_not rfl]
    exact (varDecl_reports hh depth v).map _
  | method m => exact (method_reports hh depth m).map _
  | type d => exact (hf d).map _

theorem typeDeclOf_reports {f : TypeDecl → Pass (σ × List HookCall) (Option TypeDecl)}
    (hf : ∀ d, Reports (hooked [d.outline]) (f d)) (d : TypeDecl) :
    Reports (hooked [d.outline]) (typeDeclOf h.logged depth f d) := by
  obtain ⟨id, lead, modifiers, kindLead, kind, name, params, extending, implementing,
    ⟨bodyId, bodyLead, members, close⟩⟩ := d
  rw [TypeDecl.outline, hooked_node rfl, hooked_append, outlineHeader, hooked_append, hooked_append,
    hooked_append, Outline.hooked_markers, List.nil_append, Outline.hooked_flatMap,
    Outline.hooked_flatMap, Outline.hooked_flatMap, TypeBody.outlines, Member.hooked_outlineAll,
    List.append_assoc, List.append_assoc]
  have hparams := Reports.changeOption (typeArgumentsOf_reports (typeName_reports hh depth)) params
  have hextending := Reports.changeOption (typeClause_reports hh depth) extending
  have himplementing := Reports.changeOption (typeClause_reports hh depth) implementing
  have hbody := Reports.changeEach (memberOf_reports hh depth hf) members
  refine (Reports.ask (hh.typeDecl _) (.typeDecl _)).bind (Reports.andThen ?_ .pure)
  exact hparams.bind (hextending.bind (himplementing.bind ((hbody.map _).andThen .pure)))

theorem typeDecl_reports (d : TypeDecl) :
    Reports (hooked [d.outline]) (typeDecl h.logged depth d) :=
  Reports.approx (fun d => hooked [d.outline]) (fun _ => typeDeclOf_reports hh depth) depth d

theorem transform_reports (m : Module) :
    Reports (hooked [m.outline]) (m.transform h.logged depth) := by
  rw [Module.outline, hooked_node_of_not rfl, hooked_append, Outline.hooked_map, Outline.hooked_map]
  have himports : (m.imports.flatMap fun i => hooked [.leaf (.importDecl i)]) = [] :=
    List.flatMap_eq_nil_iff.mpr fun i _ => hooked_node_of_not rfl []
  rw [himports]
  exact (Reports.changeEach (typeDecl_reports hh depth) m.types).map _

omit depth in
theorem askExpr_eq_none {e : Expr} {s s' : σ} {r : Option Expr}
    (hask : askExpr h e s = some (r, s')) : r = none := by
  cases e with
  | name i => exact (Prod.mk.inj (Option.some.inj hask)).1 ▸ hh.nameExpr i s
  | access a => exact (Prod.mk.inj (Option.some.inj hask)).1 ▸ hh.access a s
  | call c => exact (Prod.mk.inj (Option.some.inj hask)).1 ▸ hh.call c s
  | _ => exact (pure_eq_some.mp hask).1

/-- A pass that replaces nothing goes no deeper than the module is high. -/
theorem transform_isSome {m : Module} (hdepth : m.outline.height ≤ depth) (s : σ) :
    (m.transform h depth s).isSome = true := by
  have hbounded : Bounded (fun _ => True) h := by
    refine ⟨fun {t s s' r n} hask ht => ?_, fun {d s s' r n} hask hd => ?_⟩
    · obtain rfl : r = none := (congrArg Prod.fst hask).symm.trans (hh.typeName t s)
      exact ht
    · obtain rfl : r = none := (congrArg Prod.fst hask).symm.trans (hh.typeDecl d s)
      exact hd
  have hdeep : Deepens True (m.transform h depth) (m.transform h depth) :=
    transform_deepens hbounded hdepth
      (fun e => expr_deepens_of_quiet hbounded hdepth fun _ _ _ _ _ hask => askExpr_eq_none hh hask)
      (Outline.within_of_height_le (Nat.le_refl _))
  exact (hdeep s).2 trivial

end Nodes

end Pass

/-- **A pass that replaces nothing asks about the nodes that a walk enters**: the same ones, equally
often and in the same order, where the walk goes everywhere and of its nodes those are meant that have
a hook. Neither the pass nor the walk ends early, and the lists beside their states have no influence
on them. -/
theorem transform_asks_entered {σ τ : Type} {h : Hooks σ} (hh : h.ReplacesNothing) {v : Visitor τ}
    (hv : ∀ n t, (v.enter n t).1 = .descend) {m : Module} {depth : Nat} (hdepth : m.height ≤ depth)
    (s : σ) (t : τ) :
    ∃ s' calls t' events,
      m.transform h.logged depth (s, []) = some (none, s', calls)
      ∧ m.transform h depth s = some (none, s')
      ∧ m.walk v.logged (t, []) = (true, t', events)
      ∧ m.walk v t = (true, t')
      ∧ calls.map HookCall.node = (events.filterMap VisitEvent.entered?).filter Node.hasHook := by
  have hforgets := Pass.transform_forgets h (fun calls c => calls ++ [c]) depth m s []
  obtain ⟨⟨r, s'⟩, hplain⟩ := Option.isSome_iff_exists.mp
    (Pass.transform_isSome hh depth (Nat.le_of_succ_le hdepth) s)
  rw [hplain] at hforgets
  obtain ⟨⟨r, s', calls⟩, hlogged, hsame⟩ := Option.map_eq_some_iff.mp hforgets
  cases hsame
  obtain ⟨rfl, hcalls⟩ := Pass.transform_reports hh depth m s [] r s' calls hlogged
  obtain ⟨events, hwalk, haccounts, hanswers⟩ := m.outline.walk_logged v t []
  have hdescend (n : Node) (answer : Visit) (hmem : .enter n answer ∈ events) :
      answer = .descend := by
    obtain ⟨t, ht⟩ := hanswers n answer hmem
    rw [← ht, hv]
  have hskip (n : Node) : .enter n .skip ∉ events := fun hmem => nomatch hdescend n _ hmem
  have hfinished : (m.outline.walk v t).1 = true := by
    by_contra hstopped
    rw [Outline.Accounts, if_neg hstopped] at haccounts
    obtain ⟨nodes, hstops⟩ := haccounts
    obtain ⟨before, n, rfl, _⟩ := hstops.exists_last
    cases hdescend n .stop (List.mem_append_right _ List.mem_cons_self)
  rw [Outline.Accounts, if_pos hfinished] at haccounts
  refine ⟨s', calls, (m.outline.walk v t).2, events, hlogged, hplain, ?_, ?_, ?_⟩
  · rw [Module.walk, hwalk, hfinished]
    rfl
  · rw [Module.walk, ← hfinished]
  · rw [haccounts.entered_eq hskip, ← Outline.hooked_eq_filter, hcalls]
    rfl

theorem Hooks.none_replacesNothing {σ : Type} : (Hooks.none : Hooks σ).ReplacesNothing :=
  ⟨fun _ _ => rfl, fun _ _ => rfl, fun _ _ => rfl, fun _ _ => rfl, fun _ _ => rfl⟩

/-- A class, its superclass, a field of a generic type with a call on a qualified name as its value, where
each node that has a hook is met by the walk that collects the used names. -/
theorem transform_asks_entered_call : ∃ m s' calls t' events,
    Module.parse "class A extends B { C<D> c = e.f.g(h, new I()); }" = .ok m ∧
    m.transform (Hooks.none : Hooks Unit).logged m.height ((), []) = some (none, s', calls) ∧
    m.walk (usageVisitor []).logged (NameSet.empty, []) = (true, t', events) ∧
    calls.map HookCall.node = (events.filterMap VisitEvent.entered?).filter Node.hasHook ∧
    calls.length = 9 := by
  have hcheck : (do
      let m ← (Module.parse "class A extends B { C<D> c = e.f.g(h, new I()); }").toOption
      let run ← m.transform (Hooks.none : Hooks Unit).logged m.height ((), [])
      return run.2.2.length : Option Nat) = some 9 := by
    decide +kernel
  obtain ⟨m, hm, hcheck⟩ := Option.bind_eq_some_iff.mp hcheck
  obtain ⟨run, hrun, hcheck⟩ := Option.bind_eq_some_iff.mp hcheck
  have henter (n : Node) (t : NameSet) : ((usageVisitor []).enter n t).1 = .descend := by
    rw [enter_usageVisitor]
  obtain ⟨s', calls, t', events, hlogged, _, hwalk, _, hcalls⟩ :=
    transform_asks_entered Hooks.none_replacesNothing henter (Nat.le_refl m.height) () NameSet.empty
  rw [hlogged] at hrun
  cases hrun
  exact ⟨m, s', calls, t', events, eq_ok_of_toOption hm, hlogged, hwalk, hcalls,
    Option.some.inj hcheck⟩

end Migration
