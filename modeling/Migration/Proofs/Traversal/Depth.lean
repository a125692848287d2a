import Migration.Proofs.Traversal.Accesses
import Migration.Proofs.Traversal.Transform

/-!
# How deep a pass goes

A pass is carried out to a given depth, and has no result when it goes deeper. `Deepens total p q`
says that `q` is the pass `p` carried out to a sufficient depth: every result of `p` is one of `q`,
and where `total` holds, `q` has a result in any case. Both are shown in one go, node by node.

The types, blocks and declarations of a module nest no deeper than its outline is high. How deep
expressions go depends on what they are replaced by, so this is left to the rules: a pass over a module
deepens as soon as it does so on every expression in it (`transform_deepens`), where one may suppose
what holds of all accesses of the module.
-/

namespace Migration

namespace Outline

/-! ### Heights -/

theorem height_pos (o : Outline) : 0 < o.height := by
  obtain ⟨x, below⟩ := o
  exact Nat.succ_pos _

theorem heightAll_le {n : Nat} {os : List Outline} : heightAll os ≤ n ↔ ∀ o ∈ os, o.height ≤ n := by
  induction os with
  | nil => exact iff_of_true (Nat.zero_le n) (List.forall_mem_nil _)
  | cons o os ih => rw [heightAll, Nat.max_le, ih, List.forall_mem_cons]

theorem heightAll_append (os ps : List Outline) :
    heightAll (os ++ ps) = max (heightAll os) (heightAll ps) := by
  induction os with
  | nil => exact (Nat.zero_max _).symm
  | cons o os ih => rw [List.cons_append, heightAll, heightAll, ih, Nat.max_assoc]

/-- The outline is no higher than `n`, and `P` holds of its accesses. -/
def Within (P : FieldAccess → Prop) (n : Nat) (o : Outline) : Prop :=
  o.height ≤ n ∧ Accesses P [o]

/-- All outlines are within `n`. -/
def Fits (P : FieldAccess → Prop) (n : Nat) (os : List Outline) : Prop := ∀ o ∈ os, o.Within P n

variable {P : FieldAccess → Prop} {n n' : Nat} {o : Outline} {os ps : List Outline}

theorem fits_append : Fits P n (os ++ ps) ↔ Fits P n os ∧ Fits P n ps :=
  List.forall_mem_append

theorem fits_cons : Fits P n (o :: os) ↔ o.Within P n ∧ Fits P n os := List.forall_mem_cons

theorem not_within_zero (o : Outline) : ¬ o.Within P 0 :=
  fun h => Nat.not_le_of_gt o.height_pos h.1

theorem Within.mono (h : o.Within P n) (hn : n ≤ n') : o.Within P n' :=
  ⟨Nat.le_trans h.1 hn, h.2⟩

theorem Fits.mono (h : Fits P n os) (hn : n ≤ n') : Fits P n' os := fun o ho => (h o ho).mono hn

/-- What is below a node is less high than the node. -/
theorem Within.fits_below {x : Node} {below : List Outline} (h : (node x below).Within P (n + 1)) :
    Fits P n below := by
  have hheight := heightAll_le.mp (Nat.le_of_succ_le_succ h.1)
  have haccesses := accesses_iff_forall.mp (accesses_node.mp h.2).2
  exact fun o ho => ⟨hheight o ho, haccesses o ho⟩

theorem Within.fits {x : Node} {below : List Outline} (h : (node x below).Within P n) :
    Fits P n below := (h.mono (Nat.le_succ n)).fits_below

theorem within_of_height_le (h : o.height ≤ n) : o.Within (fun _ => True) n :=
  ⟨h, fun _ _ => trivial⟩

theorem fits_toList {α : Type} {f : α → Outline} {o : Option α} :
    Fits P n (o.map f).toList ↔ ∀ x ∈ o, (f x).Within P n := by
  cases o with
  | none => simp [Fits]
  | some x => simp [Fits]

theorem fits_flatMap {α : Type} {f : α → List Outline} {xs : List α} :
    Fits P n (xs.flatMap f) ↔ ∀ x ∈ xs, Fits P n (f x) := by
  constructor
  · intro h x hx o ho
    exact h o (List.mem_flatMap.mpr ⟨x, hx, ho⟩)
  · intro h o ho
    obtain ⟨x, hx, ho⟩ := List.mem_flatMap.mp ho
    exact h x hx o ho

end Outline

open Outline (Within Fits fits_append fits_cons)

section Outlines

variable {P : FieldAccess → Prop} {n : Nat}

theorem TypeName.fits_outlineAll : {ps : List (Padded TypeName)} →
    Fits P n (TypeName.outlineAll ps) → ∀ p ∈ ps, p.elem.outline.Within P n
  | [], _, _, hp => nomatch hp
  | ⟨_, _⟩ :: _, h, p, hp => by
    obtain ⟨hone, hrest⟩ := fits_cons.mp h
    rcases List.mem_cons.mp hp with rfl | hp
    · exact hone
    · exact fits_outlineAll hrest p hp

theorem Expr.fits_outlineAll : {ps : List (Padded Expr)} →
    Fits P n (Expr.outlineAll ps) → ∀ p ∈ ps, p.elem.outline.Within P n
  | [], _, _, hp => nomatch hp
  | ⟨_, _⟩ :: _, h, p, hp => by
    obtain ⟨hone, hrest⟩ := fits_cons.mp h
    rcases List.mem_cons.mp hp with rfl | hp
    · exact hone
    · exact fits_outlineAll hrest p hp

theorem Stmt.fits_outlineAll : {ss : List Stmt} →
    Fits P n (Stmt.outlineAll ss) → ∀ x ∈ ss, Fits P n x.outlines
  | [], _, _, hx => nomatch hx
  | _ :: _, h, x, hx => by
    obtain ⟨hone, hrest⟩ := fits_append.mp h
    rcases List.mem_cons.mp hx with rfl | hx
    · exact hone
    · exact fits_outlineAll hrest x hx

theorem Member.fits_outlineAll : {ms : List Member} →
    Fits P n (Member.outlineAll ms) → ∀ x ∈ ms, x.outline.Within P n
  | [], _, _, hx => nomatch hx
  | _ :: _, h, x, hx => by
    obtain ⟨hone, hrest⟩ := fits_cons.mp h
    rcases List.mem_cons.mp hx with rfl | hx
    · exact hone
    · exact fits_outlineAll hrest x hx

/-- The arguments of a type are less high than the type. -/
theorem TypeName.fits_args {t : TypeName} (h : t.outline.Within P (n + 1)) :
    ∀ a ∈ t.args, Fits P n a.outline := by
  obtain ⟨id, lead, name, args, resolved⟩ := t
  rintro a ⟨⟩
  exact h.fits_below

end Outlines

namespace Pass

variable {σ α β : Type} {total : Prop}

/-! ### Passes to a greater depth -/

/-- Every result of `p` is one of `q`, and `q` has a result in any case where `total` holds. -/
def Deepens (total : Prop) (p q : Pass σ α) : Prop :=
  ∀ s, (∀ r, p s = some r → q s = some r) ∧ (total → (q s).isSome = true)

namespace Deepens

theorem pure (a : α) : Deepens total (pure a : Pass σ α) (pure a) :=
  fun _ => ⟨fun _ h => h, fun _ => rfl⟩

theorem bind {p q : Pass σ α} {k l : α → Pass σ β} (hp : Deepens total p q)
    (hk : ∀ a, Deepens total (k a) (l a)) : Deepens total (p >>= k) (q >>= l) := by
  intro s
  refine ⟨fun r hrun => ?_, fun ht => ?_⟩
  · obtain ⟨a, s₁, ha, hrun⟩ := bind_eq_some.mp hrun
    exact bind_eq_some.mpr ⟨a, s₁, (hp s).1 _ ha, (hk a s₁).1 _ hrun⟩
  · obtain ⟨⟨a, s₁⟩, ha⟩ := Option.isSome_iff_exists.mp ((hp s).2 ht)
    obtain ⟨r, hr⟩ := Option.isSome_iff_exists.mp ((hk a s₁).2 ht)
    exact Option.isSome_iff_exists.mpr ⟨r, bind_eq_some.mpr ⟨a, s₁, ha, hr⟩⟩

/-- What comes after a hook needs to deepen for the answers that the hook gives. -/
theorem ask_bind {hook : σ → Option α × σ} {k l : Option α → Pass σ β}
    (h : ∀ s r s', hook s = (r, s') → Deepens total (k r) (l r)) :
    Deepens total (ask hook >>= k) (ask hook >>= l) := fun s => h s _ _ rfl (hook s).2

theorem askExpr_bind {h : Hooks σ} {e : Expr} {k l : Option Expr → Pass σ β}
    (hk : ∀ s r s', askExpr h e s = some (r, s') → Deepens total (k r) (l r)) :
    Deepens total (askExpr h e >>= k) (askExpr h e >>= l) := by
  intro s
  obtain ⟨⟨r, s'⟩, hask⟩ : ∃ r, askExpr h e s = some r := by cases e <;> exact ⟨_, rfl⟩
  have hrun (k : Option Expr → Pass σ β) : (askExpr h e >>= k) s = k r s' :=
    congrArg (·.bind fun q => k q.1 q.2) hask
  rw [hrun, hrun]
  exact hk s r s' hask s'

/-- A pass without a result is deepened by whatever deepens another one. -/
theorem of_none {p q : Pass σ α} (h : Deepens total p q) :
    Deepens total (fun _ => none) q := fun s => ⟨(fun _ hr => nomatch hr), (h s).2⟩

theorem map {p q : Pass σ (Option α)} (hp : Deepens total p q) (g : α → β) :
    Deepens total (do return (← p).map g) (do return (← q).map g) :=
  hp.bind fun _ => .pure _

variable {f g : α → Pass σ (Option α)}

theorem changeEach {xs : List α} (h : ∀ x ∈ xs, Deepens total (f x) (g x)) :
    Deepens total (changeEach f xs) (changeEach g xs) := by
  induction xs with
  | nil => exact .pure _
  | cons x xs ih =>
    obtain ⟨hx, hxs⟩ := List.forall_mem_cons.mp h
    exact hx.bind fun _ => (ih hxs).bind fun _ => .pure _

theorem changeItems {ps : List (Padded α)} (h : ∀ p ∈ ps, Deepens total (f p.elem) (g p.elem)) :
    Deepens total (changeItems f ps) (changeItems g ps) := by
  refine changeEach fun p hp => ?_
  exact (h p hp).map _

theorem changeListing {l : Listing α} (h : ∀ p ∈ l.items, Deepens total (f p.elem) (g p.elem)) :
    Deepens total (changeListing f l) (changeListing g l) := (changeItems h).map _

theorem changeOption {o : Option α} (h : ∀ x ∈ o, Deepens total (f x) (g x)) :
    Deepens total (changeOption f o) (changeOption g o) := by
  cases o with
  | none => exact .pure _
  | some x => exact (h x rfl).map _

theorem changeNode {node : α} {replaced : Option α}
    (h : Deepens total (f (replaced.getD node)) (g (replaced.getD node))) :
    Deepens total (changeNode node replaced f) (changeNode node replaced g) :=
  h.bind fun _ => .pure _

theorem of_succ {F : (α → Pass σ (Option α)) → α → Pass σ (Option α)} {x : α}
    {q : Pass σ (Option α)} (h : ∀ n, Deepens total (Pass.approx F (n + 1) x) q) (n : Nat) :
    Deepens total (Pass.approx F n x) q := by
  cases n with
  | zero => exact (h 0).of_none
  | succ n => exact h n

/-- **A pass deepens to a depth that no node exceeds**, when one round does. -/
theorem approx {F G : (α → Pass σ (Option α)) → α → Pass σ (Option α)} (fit : Nat → α → Prop)
    {n : Nat} (hzero : ∀ x, ¬ fit 0 x)
    (hround : ∀ self self' k x, k < n → (∀ y, fit k y → Deepens total (self y) (self' y)) →
      fit (k + 1) x → Deepens total (F self x) (G self' x))
    (shallow : Nat) {deep : Nat} (hdeep : n ≤ deep) {x : α} (hx : fit n x) :
    Deepens total (approx F shallow x) (approx G deep x) := by
  have hall (k : Nat) : ∀ {shallow deep : Nat} {x : α}, k ≤ n → k ≤ deep → fit k x →
      Deepens total (Pass.approx F shallow x) (Pass.approx G deep x) := by
    induction k with
    | zero =>
      intro _ _ x _ _ hx
      exact absurd hx (hzero x)
    | succ k ih =>
      intro shallow deep x hk hdeep hx
      cases deep with
      | zero => cases hdeep
      | succ deep =>
        have hbelow (shallow : Nat) (y : α) (hy : fit k y) :
            Deepens total (Pass.approx F shallow y) (Pass.approx G deep y) :=
          ih (Nat.le_of_succ_le hk) (Nat.le_of_succ_le_succ hdeep) hy
        exact of_succ (fun shallow => hround _ _ k x hk (hbelow shallow) hx) shallow
  exact hall n (Nat.le_refl n) hdeep hx

end Deepens

/-! ### The nodes -/

/-- The hooks replace types and declarations by ones that are no higher, and of whose accesses `P`
still holds. -/
structure Bounded (P : FieldAccess → Prop) (h : Hooks σ) : Prop where
  typeName {t : TypeName} {s s' : σ} {r : Option TypeName} {n : Nat} :
    h.typeName t s = (r, s') → t.outline.Within P n → (r.getD t).outline.Within P n
  typeDecl {d : TypeDecl} {s s' : σ} {r : Option TypeDecl} {n : Nat} :
    h.typeDecl d s = (r, s') → d.outline.Within P n → (r.getD d).outline.Within P n

section Nodes

variable {P : FieldAccess → Prop} {h : Hooks σ} (hbounded : Bounded P h) {shallow deep n : Nat}
  (hdeep : n ≤ deep)

theorem typeArgumentsOf_deepens {f g : TypeName → Pass σ (Option TypeName)} {a : TypeArguments}
    (hf : ∀ t, t.outline.Within P n → Deepens total (f t) (g t)) (ha : Fits P n a.outline) :
    Deepens total (typeArgumentsOf f a) (typeArgumentsOf g a) := by
  obtain ⟨id, ⟨lead, items, close⟩⟩ := a
  exact (Deepens.changeListing fun p hp => hf _ (TypeName.fits_outlineAll ha p hp)).map _

include hbounded hdeep

theorem typeName_deepens {t : TypeName} (ht : t.outline.Within P n) :
    Deepens total (typeName h shallow t) (typeName h deep t) := by
  refine Deepens.approx (fun n t => t.outline.Within P n)
    (fun t => t.outline.not_within_zero) (fun self self' k t _ hself ht => ?_) shallow hdeep ht
  refine Deepens.ask_bind fun s r s' hask => Deepens.changeNode ?_
  have hargs := TypeName.fits_args (hbounded.typeName hask ht)
  exact (Deepens.changeOption fun a ha => typeArgumentsOf_deepens hself (hargs a ha)).map _

theorem typeClause_deepens {c : TypeClause} (hc : Fits P n c.outlines) :
    Deepens total (typeClause h shallow c) (typeClause h deep c) :=
  (Deepens.changeItems fun p hp =>
    typeName_deepens hbounded hdeep (TypeName.fits_outlineAll hc p hp)).map _

/-- What is directly below an expression. -/
theorem belowExpr_deepens {f g : Expr → Pass σ (Option Expr)} {e : Expr} {k : Nat} (hk : k ≤ n)
    (hf : ∀ e, e.outline.Within P k → Deepens total (f e) (g e)) (he : e.outline.Within P (k + 1)) :
    Deepens total (belowExpr h shallow f e) (belowExpr h deep g e) := by
  cases e with
  | name i => exact .pure _
  | literal l => exact .pure _
  | access a =>
    obtain ⟨id, target, dot, name, owner⟩ := a
    have hbelow := (fits_cons.mp he.fits_below).1.fits
    exact (hf target (fits_cons.mp hbelow).1).map _
  | call c =>
    obtain ⟨id, target, dot, name, ⟨opened, items, closed⟩⟩ := c
    have hparts : (∀ e ∈ target, e.outline.Within P k) ∧ Fits P k (Expr.outlineAll items) := by
      cases target with
      | none => exact ⟨nofun, (fits_cons.mp he.fits_below).1.fits⟩
      | some target =>
        have hbelow := (fits_cons.mp he.fits_below).1.fits
        refine ⟨?_, (fits_cons.mp hbelow).2⟩
        rintro e ⟨⟩
        exact (fits_cons.mp hbelow).1
    exact (Deepens.changeOption fun e hmem => hf e (hparts.1 e hmem)).bind fun _ =>
      (Deepens.changeListing fun p hp => hf _ (Expr.fits_outlineAll hparts.2 p hp)).bind
        fun _ => .pure _
  | create c =>
    obtain ⟨id, lead, type, ⟨opened, items, closed⟩⟩ := c
    have hbelow := (fits_cons.mp he.fits_below).1.fits
    exact (typeName_deepens hbounded hdeep ((fits_cons.mp hbelow).1.mono hk)).bind fun _ =>
      (Deepens.changeListing fun p hp =>
        hf _ (Expr.fits_outlineAll (fits_cons.mp hbelow).2 p hp)).bind fun _ => .pure _
  | binary b =>
    obtain ⟨id, left, opLead, op, right⟩ := b
    obtain ⟨hleft, hright⟩ := fits_cons.mp he.fits_below
    exact (hf left hleft).bind fun _ => (hf right (fits_cons.mp hright).1).bind fun _ => .pure _
  | parens p =>
    obtain ⟨id, lead, inner, close⟩ := p
    exact (hf inner (fits_cons.mp he.fits_below).1).map _

/-- Expressions that are not replaced go no deeper than they are high. -/
theorem expr_deepens_of_quiet
    (hquiet : ∀ e s r s', Outline.Accesses P [e.outline] → askExpr h e s = some (r, s') → r = none)
    {e : Expr} (he : e.outline.Within P n) :
    Deepens total (expr h shallow e) (expr h deep e) := by
  refine Deepens.approx (fun n e => e.outline.Within P n)
    (fun e => e.outline.not_within_zero) (fun self self' k e hk hself he => ?_) shallow hdeep he
  refine Deepens.askExpr_bind fun s r s' hask => ?_
  obtain rfl := hquiet e s r s' he.2 hask
  exact Deepens.changeNode (belowExpr_deepens hbounded hdeep (Nat.le_of_lt hk) hself he)

variable (hexpr : ∀ e : Expr, e.outline.Within P n →
  Deepens total (expr h shallow e) (expr h deep e))

include hexpr

omit hbounded hdeep in
theorem initializer_deepens {i : Initializer} (hi : i.value.outline.Within P n) :
    Deepens total (initializer h shallow i) (initializer h deep i) := (hexpr i.value hi).map _

theorem varDecl_deepens {v : Variable} (hv : Fits P n v.outlines) :
    Deepens total (varDecl h shallow v) (varDecl h deep v) := by
  obtain ⟨htype, hvalue⟩ := fits_cons.mp (fits_append.mp hv).2
  rw [Outline.fits_toList] at hvalue
  exact (typeName_deepens hbounded hdeep htype).bind fun _ =>
    (Deepens.changeOption fun i hi => initializer_deepens hexpr (hvalue i hi)).bind
      fun _ => .pure _

theorem stmtOf_deepens {f g : Block → Pass σ (Option Block)} {x : Stmt} {k : Nat} (hk : k ≤ n)
    (hf : ∀ b, b.outline.Within P k → Deepens total (f b) (g b)) (hx : Fits P k x.outlines) :
    Deepens total (stmtOf h shallow f x) (stmtOf h deep g x) := by
  cases x with
  | expr x => exact (hexpr x.expr ((fits_cons.mp hx).1.mono hk)).map _
  | localVar v => exact (varDecl_deepens hbounded hdeep hexpr (hx.mono hk)).map _
  | ret x =>
    have hvalue := Outline.fits_toList.mp (hx.mono hk)
    exact (Deepens.changeOption fun e he => hexpr e (hvalue e he)).map _
  | block b => exact (hf b (fits_cons.mp hx).1).map _

theorem block_deepens {b : Block} (hb : b.outline.Within P n) :
    Deepens total (block h shallow b) (block h deep b) := by
  refine Deepens.approx (fun n b => b.outline.Within P n)
    (fun b => b.outline.not_within_zero) (fun self self' k b hk hself hb => ?_) shallow hdeep hb
  obtain ⟨id, lead, statements, close⟩ := b
  have hstatements := Stmt.fits_outlineAll hb.fits_below
  exact (Deepens.changeEach fun x hx => stmtOf_deepens hbounded hdeep hexpr (Nat.le_of_lt hk) hself
    (hstatements x hx)).map _

theorem methodBody_deepens {b : MethodBody} (hb : Fits P n b.outlines) :
    Deepens total (methodBody h shallow b) (methodBody h deep b) := by
  cases b with
  | block b => exact (block_deepens hbounded hdeep hexpr (fits_cons.mp hb).1).map _
  | absent semi => exact .pure _

omit hexpr in
theorem param_deepens {p : Param} (hp : Fits P n p.outlines) :
    Deepens total (param h shallow p) (param h deep p) :=
  (typeName_deepens hbounded hdeep (fits_cons.mp (fits_append.mp hp).2).1).map _

theorem method_deepens {m : Method} (hm : m.outline.Within P n) :
    Deepens total (method h shallow m) (method h deep m) := by
  obtain ⟨hfront, hbody⟩ := fits_append.mp hm.fits
  obtain ⟨hfront, hparams⟩ := fits_append.mp hfront
  have htype := Outline.fits_toList.mp (fits_append.mp hfront).2
  rw [Outline.fits_flatMap] at hparams
  exact (Deepens.changeOption fun t ht => typeName_deepens hbounded hdeep (htype t ht)).bind
    fun _ => (Deepens.changeListing fun p hp => param_deepens hbounded hdeep (hparams p hp)).bind
    fun _ => (methodBody_deepens hbounded hdeep hexpr hbody).bind fun _ => .pure _

theorem memberOf_deepens {f g : TypeDecl → Pass σ (Option TypeDecl)} {x : Member} {k : Nat}
    (hk : k ≤ n) (hf : ∀ d, d.outline.Within P k → Deepens total (f d) (g d))
    (hx : x.outline.Within P k) :
    Deepens total (memberOf h shallow f x) (memberOf h deep g x) := by
  cases x with
  | field v =>
    have hv := hx.fits
    exact (varDecl_deepens hbounded hdeep hexpr (hv.mono hk)).map _
  | method m => exact (method_deepens hbounded hdeep hexpr (hx.mono hk)).map _
  | type d => exact (hf d hx).map _

theorem belowTypeDecl_deepens {f g : TypeDecl → Pass σ (Option TypeDecl)} {d : TypeDecl} {k : Nat}
    (hk : k ≤ n) (hf : ∀ d, d.outline.Within P k → Deepens total (f d) (g d))
    (hd : d.outline.Within P (k + 1)) :
    Deepens total (belowTypeDecl h shallow f d) (belowTypeDecl h deep g d) := by
  obtain ⟨id, lead, modifiers, kindLead, kind, name, params, extending, implementing,
    ⟨bodyId, bodyLead, members, close⟩⟩ := d
  obtain ⟨hheader, hmembers⟩ := fits_append.mp hd.fits_below
  obtain ⟨hheader, himplementing⟩ := fits_append.mp (hheader.mono hk)
  obtain ⟨hheader, hextending⟩ := fits_append.mp hheader
  obtain ⟨_, hparams⟩ := fits_append.mp hheader
  rw [Outline.fits_flatMap] at hparams hextending himplementing
  simp only [Option.mem_toList] at hparams hextending himplementing
  refine (Deepens.changeOption fun a ha => typeArgumentsOf_deepens
    (fun t => typeName_deepens hbounded hdeep) (hparams a ha)).bind fun _ => ?_
  refine (Deepens.changeOption fun c hc =>
    typeClause_deepens hbounded hdeep (hextending c hc)).bind fun _ => ?_
  refine (Deepens.changeOption fun c hc =>
    typeClause_deepens hbounded hdeep (himplementing c hc)).bind fun _ => ?_
  have hbody := Deepens.changeEach fun x hx =>
    memberOf_deepens hbounded hdeep hexpr hk hf (Member.fits_outlineAll hmembers x hx)
  exact (hbody.map _).bind fun _ => .pure _

theorem typeDecl_deepens {d : TypeDecl} (hd : d.outline.Within P n) :
    Deepens total (typeDecl h shallow d) (typeDecl h deep d) := by
  refine Deepens.approx (fun n d => d.outline.Within P n)
    (fun d => d.outline.not_within_zero) (fun self self' k d hk hself hd => ?_) shallow hdeep hd
  refine Deepens.ask_bind fun s r s' hask => Deepens.changeNode ?_
  exact belowTypeDecl_deepens hbounded hdeep hexpr (Nat.le_of_lt hk) hself
    (hbounded.typeDecl hask hd)

/-- **A pass over a module deepens** when it does so on every expression that is no higher than the
types of the module. -/
theorem transform_deepens {m : Module} (hm : m.outline.Within P n) :
    Deepens total (m.transform h shallow) (m.transform h deep) := by
  have htypes := (fits_append.mp hm.fits).2
  exact (Deepens.changeEach fun d hd => typeDecl_deepens hbounded hdeep hexpr
    (htypes _ (List.mem_map_of_mem hd))).map _

end Nodes

end Pass

end Migration
