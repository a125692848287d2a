import Migration.Proofs.Traversal.Transform
import Migration.Proofs.Tree.Numbered

/-!
# The numbers of the nodes through a pass

A pass copies all numbers of a node that it does not ask a hook about. So what it does to the numbers of
a module is known from what the hooks do to those of a single node: a relation of lists of numbers that
is put together piece by piece (`append`) and step by step (`trans`), and that the hooks keep to, holds
of the numbers of all types before and after the pass (`Threads.transform`).
-/

namespace Migration

namespace Pass

open Change (Each Opt Item Bracketed Below)

variable {σ : Type}

/-- A change of lists of numbers that the hooks keep to, and that goes through a traversal. -/
structure Threads (h : Hooks σ) (L : Change σ (List NodeId)) : Prop where
  keep (s : σ) (ids : List NodeId) : L s ids s ids
  append {s s₁ s₂ : σ} {xs ys xs' ys' : List NodeId} :
    L s xs s₁ ys → L s₁ xs' s₂ ys' → L s (xs ++ xs') s₂ (ys ++ ys')
  trans {s s₁ s₂ : σ} {xs ys zs : List NodeId} : L s xs s₁ ys → L s₁ ys s₂ zs → L s xs s₂ zs
  quiet (t : TypeName) (s : σ) : h.typeName t s = (none, s)
  expr {s s₁ : σ} {x : Expr} {r : Option Expr} :
    askExpr h x s = some (r, s₁) → L s x.ids s₁ (r.getD x).ids
  decl {s s₁ : σ} {d : TypeDecl} {r : Option TypeDecl} :
    h.typeDecl d s = (r, s₁) → L s d.ids s₁ (r.getD d).ids

namespace Threads

variable {h : Hooks σ} {L : Change σ (List NodeId)} (hL : Threads h L) {s s' : σ}

include hL

/-- Numbers in front that are kept, and then the rest. -/
theorem after (front : List NodeId) {xs ys : List NodeId} (hrest : L s xs s' ys) :
    L s (front ++ xs) s' (front ++ ys) := hL.append (hL.keep s front) hrest

/-! ### Expressions -/

theorem items {xs ys : List (Padded Expr)}
    (hxs : Each (Item fun s x s' y => L s x.ids s' y.ids) s xs s' ys) :
    L s (Expr.idsAll xs) s' (Expr.idsAll ys) := by
  induction hxs with
  | nil => exact hL.keep _ []
  | cons hx _ ih =>
    obtain ⟨hx⟩ := hx
    exact hL.append hx ih

theorem below {x y : Expr} (hx : Below (fun s x s' y => L s x.ids s' y.ids) s x s' y) :
    L s x.ids s' y.ids := by
  cases hx with
  | name => exact hL.keep _ _
  | literal => exact hL.keep _ _
  | @access _ _ a target htarget =>
    rw [Expr.ids_access, Expr.ids_access]
    exact hL.after _ htarget
  | @call _ _ _ c target args htarget hargs =>
    obtain ⟨id, receiver, dot, name, list⟩ := c
    obtain ⟨hitems⟩ := hargs
    have hitems := hL.items hitems
    cases htarget with
    | none => exact hL.after _ hitems
    | some ht => exact hL.after _ (hL.append ht hitems)
  | @create _ _ c args hargs =>
    obtain ⟨id, lead, type, list⟩ := c
    obtain ⟨hitems⟩ := hargs
    exact hL.after _ (hL.items hitems)
  | @binary _ _ _ b left right hleft hright =>
    obtain ⟨id, _, opLead, op, _⟩ := b
    exact hL.after _ (hL.append hleft hright)
  | @parens _ _ p inner hinner =>
    obtain ⟨id, lead, _, close⟩ := p
    exact hL.after _ hinner

/-! ### Statements and declarations -/

theorem opt {α : Type} {f : α → List NodeId} {R : Change σ α} {x y : Option α}
    (hR : ∀ {s x s' y}, R s x s' y → L s (f x) s' (f y)) (hx : Opt R s x s' y) :
    L s (x.toList.flatMap f) s' (y.toList.flatMap f) := by
  cases hx with
  | none => exact hL.keep _ []
  | some hx =>
    rw [Option.toList_some, List.flatMap_singleton, Option.toList_some, List.flatMap_singleton]
    exact hR hx

theorem var {v w : Variable} (hv : Change.Var (fun s x s' y => L s x.ids s' y.ids) s v s' w) :
    L s v.ids s' w.ids := by
  obtain ⟨hvalue⟩ := hv
  refine hL.after _ (hL.opt (fun hinit => ?_) hvalue)
  obtain ⟨hx⟩ := hinit
  exact hx

theorem statements {xs ys : List Stmt}
    (hxs : Each (Change.Stmt (fun s x s' y => L s x.ids s' y.ids)
      fun s b s' c => L s b.ids s' c.ids) s xs s' ys) :
    L s (Stmt.idsAll xs) s' (Stmt.idsAll ys) := by
  induction hxs with
  | nil => exact hL.keep _ []
  | cons hx _ ih =>
    refine hL.append ?_ ih
    cases hx with
    | expr hx => exact hL.after _ hx
    | localVar hv => exact hL.var hv
    | ret hx => exact hL.after _ (hL.opt (fun hx => hx) hx)
    | block hb => exact hb

theorem members {xs ys : List Member}
    (hxs : Each (Change.Member (fun s x s' y => L s x.ids s' y.ids)
      (fun s b s' c => L s b.ids s' c.ids) fun s d s' e => L s d.ids s' e.ids) s xs s' ys) :
    L s (Member.idsAll xs) s' (Member.idsAll ys) := by
  induction hxs with
  | nil => exact hL.keep _ []
  | cons hx _ ih =>
    refine hL.append ?_ ih
    cases hx with
    | field hv => exact hL.var hv
    | @method _ _ m body hbody =>
      refine hL.after m.headerIds ?_
      generalize m.body = x at hbody
      cases hbody with
      | block hb => exact hb
      | absent => exact hL.keep _ []
    | type hd => exact hd

theorem respects : Respects h (fun s x s' y => L s x.ids s' y.ids)
    (fun s b s' c => L s b.ids s' c.ids) fun s d s' e => L s d.ids s' e.ids where
  quiet := hL.quiet
  expr hask hbelow := hL.trans (hL.expr hask) (hL.below hbelow)
  block {s s' b statements} hstatements := by
    obtain ⟨id, lead, _, close⟩ := b
    exact hL.after _ (hL.statements hstatements)
  decl {s s₁ s₂ d r members} hask hmembers := by
    refine hL.trans (hL.decl hask) ?_
    rw [TypeDecl.ids_eq, TypeDecl.ids_eq]
    exact hL.after (r.getD d).frontIds (hL.members hmembers)

theorem types {xs ys : List TypeDecl}
    (hxs : Each (fun s d s' e => L s d.ids s' e.ids) s xs s' ys) :
    L s (xs.flatMap TypeDecl.ids) s' (ys.flatMap TypeDecl.ids) := by
  induction hxs with
  | nil => exact hL.keep _ []
  | cons hd _ ih =>
    rw [List.flatMap_cons, List.flatMap_cons]
    exact hL.append hd ih

/-- **What hooks do to the numbers of a node, a pass does to those of a module.** -/
theorem transform {m : Module} {depth : Nat} {r : Option Module}
    (hrun : m.transform h depth s = some (r, s')) :
    ∃ types, r.getD m = { m with types }
      ∧ L s (m.types.flatMap TypeDecl.ids) s' (types.flatMap TypeDecl.ids) := by
  obtain ⟨types, htypes, hout⟩ := hL.respects.transform_each depth hrun
  exact ⟨types, hout, hL.types htypes⟩

end Threads

end Pass

end Migration
