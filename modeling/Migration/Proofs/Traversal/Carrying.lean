import Migration.Proofs.Traversal.Accesses
import Migration.Proofs.Traversal.Transform

/-!
# What a pass carries through a module

A change of outlines that is put together from those of their parts (`Congruent`) is carried through
statements and declarations as soon as it is carried through expressions.

A pass that replaces expressions only can be judged by what it does to each of them. Given what it
supposes of the accesses before, how it may move the state on, and what it establishes of the outlines
after, `Carried` is the triple of the three. It is put together from its parts when the property of the
outlines after is (`Carrier`).

Main results: `Congruent.transform`, and `transform_carried` as a case of it.
-/

namespace Migration

/-- The node is no access, and no name stands at it. -/
def Node.Plain (n : Node) : Prop := n.access? = none ∧ n.mention? [] = none

namespace Pass

open Outline (Accesses collect accesses_append accesses_node)
open Change (Each Opt Item Bracketed Below)

variable {σ : Type}

/-! ### Changes put together from their parts -/

/-- A change of outlines that leaves alone what has no accesses, and is put together of changes side by
side and below plain nodes. -/
structure Congruent (K : Change σ (List Outline)) : Prop where
  free {s : σ} {os : List Outline} : collect Node.access? os = [] → K s os s os
  append {s s₁ s₂ : σ} {os ps os' ps' : List Outline} :
    K s os s₁ ps → K s₁ os' s₂ ps' → K s (os ++ os') s₂ (ps ++ ps')
  node {s s' : σ} {n n' : Node} {os ps : List Outline} :
    n.Plain → n'.Plain → K s os s' ps → K s [.node n os] s' [.node n' ps]

namespace Congruent

variable {K : Change σ (List Outline)} (hK : Congruent K) {s s₁ s₂ s' : σ} {os ps : List Outline}

include hK

theorem cons {o p : Outline} (h : K s [o] s₁ [p]) (h' : K s₁ os s₂ ps) :
    K s (o :: os) s₂ (p :: ps) := hK.append h h'

/-- Parts in front that have no accesses, and then the rest. -/
theorem after {front : List Outline} (hfront : collect Node.access? front = [])
    (h : K s os s' ps) : K s (front ++ os) s' (front ++ ps) := hK.append (hK.free hfront) h

/-! ### Expressions -/

variable {E : Change σ Expr} (hE : ∀ {s x s' y}, E s x s' y → K s [x.outline] s' [y.outline])

include hE

theorem items {xs ys : List (Padded Expr)} (h : Each (Item E) s xs s' ys) :
    K s (Expr.outlineAll xs) s' (Expr.outlineAll ys) := by
  induction h with
  | nil => exact hK.free rfl
  | cons hx _ ih =>
    obtain ⟨hx⟩ := hx
    exact hK.cons (hE hx) ih

theorem opt {x y : Option Expr} (h : Opt E s x s' y) :
    K s (x.map Expr.outline).toList s' (y.map Expr.outline).toList := by
  cases h with
  | none => exact hK.free rfl
  | some hx => exact hE hx

/-- What is directly below an expression that is no access. -/
theorem below {x y : Expr} (h : Below E s x s' y) (hx : ∀ a, x ≠ .access a) :
    K s [x.outline] s' [y.outline] := by
  cases h with
  | name => exact hK.free rfl
  | literal => exact hK.free rfl
  | access _ => exact absurd rfl (hx _)
  | @call _ _ _ c target args htarget hargs =>
    obtain ⟨id, receiver, dot, name, list⟩ := c
    obtain ⟨hitems⟩ := hargs
    have hitems := hK.items hE hitems
    cases htarget with
    | none => exact hK.node ⟨rfl, rfl⟩ ⟨rfl, rfl⟩ (hK.node ⟨rfl, rfl⟩ ⟨rfl, rfl⟩ hitems)
    | some ht =>
      exact hK.node ⟨rfl, rfl⟩ ⟨rfl, rfl⟩
        (hK.node ⟨rfl, rfl⟩ ⟨rfl, rfl⟩ (hK.cons (hE ht) hitems))
  | @create _ _ c args hargs =>
    obtain ⟨id, lead, type, list⟩ := c
    obtain ⟨hitems⟩ := hargs
    exact hK.node ⟨rfl, rfl⟩ ⟨rfl, rfl⟩ (hK.node ⟨rfl, rfl⟩ ⟨rfl, rfl⟩
      (hK.cons (hK.free (Outline.collect_typeName type)) (hK.items hE hitems)))
  | @binary _ _ _ b left right hleft hright =>
    obtain ⟨id, _, opLead, op, _⟩ := b
    exact hK.node ⟨rfl, rfl⟩ ⟨rfl, rfl⟩ (hK.cons (hE hleft) (hE hright))
  | @parens _ _ p inner hinner =>
    obtain ⟨id, lead, _, close⟩ := p
    exact hK.node ⟨rfl, rfl⟩ ⟨rfl, rfl⟩ (hE hinner)

/-! ### Statements and declarations -/

theorem var {v w : Variable} (h : Change.Var E s v s' w) : K s v.outlines s' w.outlines := by
  obtain ⟨hvalue⟩ := h
  refine hK.after (Outline.collect_markers _)
    (hK.cons (hK.free (Outline.collect_typeName v.type)) ?_)
  generalize v.value = x at hvalue
  cases hvalue with
  | none => exact hK.free rfl
  | some hinit =>
    obtain ⟨hx⟩ := hinit
    exact hE hx

theorem statements {B : Change σ Block}
    (hB : ∀ {s b s' c}, B s b s' c → K s [b.outline] s' [c.outline])
    {xs ys : List Stmt} (h : Each (Change.Stmt E B) s xs s' ys) :
    K s (Stmt.outlineAll xs) s' (Stmt.outlineAll ys) := by
  induction h with
  | nil => exact hK.free rfl
  | cons hx _ ih =>
    refine hK.append ?_ ih
    cases hx with
    | expr hx => exact hE hx
    | localVar hv => exact hK.var hE hv
    | ret hx => exact hK.opt hE hx
    | block hb => exact hB hb

theorem members {B : Change σ Block} {D : Change σ TypeDecl}
    (hB : ∀ {s b s' c}, B s b s' c → K s [b.outline] s' [c.outline])
    (hD : ∀ {s d s' e}, D s d s' e → K s [d.outline] s' [e.outline])
    {xs ys : List Member} (h : Each (Change.Member E B D) s xs s' ys) :
    K s (Member.outlineAll xs) s' (Member.outlineAll ys) := by
  induction h with
  | nil => exact hK.free rfl
  | cons hx _ ih =>
    refine hK.cons ?_ ih
    cases hx with
    | field hv => exact hK.node ⟨rfl, rfl⟩ ⟨rfl, rfl⟩ (hK.var hE hv)
    | @method _ _ m body hbody =>
      refine hK.node ⟨rfl, rfl⟩ ⟨rfl, rfl⟩ (hK.after (Outline.collect_methodHeader m) ?_)
      generalize m.body = x at hbody
      cases hbody with
      | block hb => exact hB hb
      | absent => exact hK.free rfl
    | type hd => exact hD hd

omit hE in
theorem types {xs ys : List TypeDecl}
    (h : Each (fun s d s' e => K s [d.outline] s' [e.outline]) s xs s' ys) :
    K s (xs.map TypeDecl.outline) s' (ys.map TypeDecl.outline) := by
  induction h with
  | nil => exact hK.free rfl
  | cons hd _ ih => exact hK.cons hd ih

theorem block {b : Block} {statements : List Stmt}
    (h : Each (Change.Stmt E fun s b s' c => K s [b.outline] s' [c.outline]) s b.statements s'
      statements) : K s [b.outline] s' [({ b with statements } : Block).outline] := by
  obtain ⟨id, lead, _, close⟩ := b
  exact hK.node ⟨rfl, rfl⟩ ⟨rfl, rfl⟩ (hK.statements hE (fun hb => hb) h)

/-- **What is carried through expressions is carried through a module**, by a pass that replaces
expressions only. -/
theorem transform {h : Hooks σ} (htype : ∀ t s, h.typeName t s = (none, s))
    (hdecl : ∀ d s, h.typeDecl d s = (none, s))
    (hexpr : ∀ {s s₁ s₂ x y r}, askExpr h x s = some (r, s₁) → Below E s₁ (r.getD x) s₂ y →
      E s x s₂ y)
    {m : Module} {depth : Nat} {r : Option Module} (hrun : m.transform h depth s = some (r, s')) :
    K s (m.types.map TypeDecl.outline) s' ((r.getD m).types.map TypeDecl.outline) := by
  have hrespects : Respects h E (fun s b s' c => K s [b.outline] s' [c.outline])
      (fun s d s' e => K s [d.outline] s' [e.outline]) := by
    refine ⟨htype, hexpr, fun hstatements => hK.block hE hstatements, ?_⟩
    intro s s₁ s₂ d r members hask hmembers
    obtain ⟨rfl, rfl⟩ : none = r ∧ s = s₁ := by
      rw [hdecl, Prod.mk.injEq] at hask
      exact hask
    obtain ⟨_, _, _, _, _, _, _, _, _, ⟨_, _, _, _⟩⟩ := d
    exact hK.node ⟨rfl, rfl⟩ ⟨rfl, rfl⟩ (hK.after (Outline.collect_header _ _ _ _)
      (hK.members hE (fun hb => hb) (fun hd => hd) hmembers))
  obtain ⟨types, htypes, hout⟩ := hrespects.transform_each depth hrun
  rw [hout]
  exact hK.types htypes

end Congruent

/-! ### What is carried through -/

/-- A relation of states and a property of outlines in a state: it is kept when the state moves on,
holds where there are no accesses, and is put together at nodes that are none. -/
structure Carrier (T : σ → σ → Prop) (Q : σ → List Outline → Prop) : Prop where
  refl (s : σ) : T s s
  trans {s s₁ s₂ : σ} : T s s₁ → T s₁ s₂ → T s s₂
  mono {s s' : σ} {os : List Outline} : T s s' → Q s os → Q s' os
  free {s : σ} {os : List Outline} : collect Node.access? os = [] → Q s os
  append {s : σ} {os ps : List Outline} : Q s os → Q s ps → Q s (os ++ ps)
  node {s : σ} {n : Node} {below : List Outline} :
    n.access? = none → Q s below → Q s [.node n below]

/-- Where `P` holds of the accesses before, the state moves on by `T`, and `Q` holds of the outlines
after. -/
def Carried (T : σ → σ → Prop) (Q : σ → List Outline → Prop) (P : FieldAccess → Prop) :
    Change σ (List Outline) :=
  fun s os s' ps => Accesses P os → T s s' ∧ Q s' ps

variable {T : σ → σ → Prop} {Q : σ → List Outline → Prop} {P : FieldAccess → Prop}

theorem Carrier.congruent (hc : Carrier T Q) : Congruent (Carried T Q P) where
  free h := fun _ => ⟨hc.refl _, hc.free h⟩
  append h h' := by
    intro hpre
    obtain ⟨hos, hos'⟩ := accesses_append.mp hpre
    obtain ⟨hT, hQ⟩ := h hos
    obtain ⟨hT', hQ'⟩ := h' hos'
    exact ⟨hc.trans hT hT', hc.append (hc.mono hT' hQ) hQ'⟩
  node _ hn' h := by
    intro hpre
    obtain ⟨hT, hQ⟩ := h (accesses_node.mp hpre).2
    exact ⟨hT, hc.node hn'.1 hQ⟩

/-- **What is carried through expressions is carried through a module.** -/
theorem Carrier.transform_carried (hc : Carrier T Q) {E : Change σ Expr}
    (hE : ∀ {s x s' y}, E s x s' y → Carried T Q P s [x.outline] s' [y.outline]) {s s' : σ}
    {h : Hooks σ} (htype : ∀ t s, h.typeName t s = (none, s))
    (hdecl : ∀ d s, h.typeDecl d s = (none, s))
    (hexpr : ∀ {s s₁ s₂ x y r}, askExpr h x s = some (r, s₁) → Below E s₁ (r.getD x) s₂ y →
      E s x s₂ y)
    {m : Module} {depth : Nat} {r : Option Module} (hrun : m.transform h depth s = some (r, s')) :
    Carried T Q P s (m.types.map TypeDecl.outline) s' ((r.getD m).types.map TypeDecl.outline) :=
  hc.congruent.transform hE htype hdecl hexpr hrun

end Pass

end Migration
