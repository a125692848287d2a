import Migration.Proofs.Traversal.Transform

/-!
# A pass gives a part exactly when it has replaced a node

Whoever runs a pass learns in two ways whether anything was replaced: a traversal gives nothing for a
part in which no hook replaced a node, and the hooks count their replacements in the state. Here the
two are shown to agree at every kind of node, for hooks in which they agree.

Main result: `transform_tells`.
-/

namespace Migration

namespace Pass

variable {σ α β : Type} {count : σ → Nat}

/-- The count never falls, and the pass gives a part exactly when the count grows or a part before it
was given; `before` says whether one was. -/
def Tells (count : σ → Nat) (before : Bool) (p : Pass σ (Option α)) : Prop :=
  ∀ s r s', p s = some (r, s') →
    count s ≤ count s' ∧ (r.isSome = true ↔ before = true ∨ count s < count s')

/-! ### One part after the other -/

theorem Tells.pure {before : Bool} {r : Option α} (h : r.isSome = before) :
    Tells count before (pure r) := by
  intro s r' s' hrun
  obtain ⟨rfl, rfl⟩ := pure_eq_some.mp hrun
  rw [h]
  exact ⟨Nat.le_refl _, by simp⟩

theorem Tells.bind {before : Bool} {p : Pass σ (Option α)} {k : Option α → Pass σ (Option β)}
    (hp : Tells count false p) (hk : ∀ y, Tells count (before || y.isSome) (k y)) :
    Tells count before (p >>= k) := by
  intro s r s' hrun
  obtain ⟨y, s₁, hy, hrun⟩ := bind_eq_some.mp hrun
  obtain ⟨hle, hiff⟩ := hp s y s₁ hy
  obtain ⟨hle', hiff'⟩ := hk y s₁ r s' hrun
  refine ⟨Nat.le_trans hle hle', ?_⟩
  have hgrows : count s < count s' ↔ count s < count s₁ ∨ count s₁ < count s' := by omega
  rw [hiff', Bool.or_eq_true, hiff, hgrows]
  simp only [Bool.false_eq_true, false_or, or_assoc]

theorem Tells.map {p : Pass σ (Option α)} (hp : Tells count false p) (g : α → β) :
    Tells count false (do return (← p).map g) :=
  hp.bind fun y => .pure (by cases y <;> rfl)

variable {f : α → Pass σ (Option α)}

theorem Tells.changeEach (hf : ∀ x, Tells count false (f x)) (xs : List α) :
    Tells count false (changeEach f xs) := by
  induction xs with
  | nil => exact .pure rfl
  | cons x xs ih =>
    refine (hf x).bind fun y => ih.bind fun ys => .pure ?_
    cases y <;> cases ys <;> rfl

theorem Tells.changeItems (hf : ∀ x, Tells count false (f x)) (xs : List (Padded α)) :
    Tells count false (changeItems f xs) := by
  refine Tells.changeEach (fun x => ?_) xs
  exact (hf x.elem).map _

theorem Tells.changeListing (hf : ∀ x, Tells count false (f x)) (l : Listing α) :
    Tells count false (changeListing f l) := (Tells.changeItems hf l.items).map _

theorem Tells.changeOption (hf : ∀ x, Tells count false (f x)) (o : Option α) :
    Tells count false (changeOption f o) := by
  cases o with
  | none => exact .pure rfl
  | some x => exact (hf x).map _

/-- A node that is replaced or not, and then what is below it or below its replacement. -/
theorem Tells.changeNode {hook : Pass σ (Option α)} {node : α} {below : α → Pass σ (Option α)}
    (hhook : Tells count false hook) (hbelow : ∀ x, Tells count false (below x)) :
    Tells count false (do changeNode node (← hook) below) := by
  refine hhook.bind fun replaced => (hbelow _).bind fun y => .pure ?_
  cases y <;> cases replaced <;> rfl

theorem Tells.approx {F : (α → Pass σ (Option α)) → α → Pass σ (Option α)}
    (hF : ∀ self, (∀ x, Tells count false (self x)) → ∀ x, Tells count false (F self x))
    (n : Nat) (x : α) : Tells count false (approx F n x) := by
  induction n generalizing x with
  | zero =>
    intro s r s' h
    cases h
  | succ n ih => exact hF _ ih x

theorem typeArgumentsOf_tells {type : TypeName → Pass σ (Option TypeName)}
    (htype : ∀ t, Tells count false (type t)) (a : TypeArguments) :
    Tells count false (typeArgumentsOf type a) := (Tells.changeListing htype a.list).map _

/-! ### The nodes -/

/-- The hooks count what they replace. -/
structure Counting (count : σ → Nat) (h : Hooks σ) : Prop where
  typeDecl (d : TypeDecl) : Tells count false (ask (h.typeDecl d))
  typeName (t : TypeName) : Tells count false (ask (h.typeName t))
  expr (e : Expr) : Tells count false (askExpr h e)

namespace Counting

variable {h : Hooks σ} (hcount : Counting count h) (depth : Nat)

include hcount

theorem typeName_tells (t : TypeName) : Tells count false (Pass.typeName h depth t) := by
  refine Tells.approx (fun self hself t => ?_) depth t
  refine Tells.changeNode (hcount.typeName t) fun t => ?_
  exact (Tells.changeOption (typeArgumentsOf_tells hself) t.args).map _

theorem typeClause_tells (c : TypeClause) : Tells count false (typeClause h depth c) :=
  (Tells.changeItems (typeName_tells hcount depth) c.types).map _

theorem belowExpr_tells {self : Expr → Pass σ (Option Expr)}
    (hself : ∀ e, Tells count false (self e)) (e : Expr) :
    Tells count false (belowExpr h depth self e) := by
  cases e with
  | name i => exact .pure rfl
  | literal l => exact .pure rfl
  | access a => exact (hself a.target).map _
  | call c =>
    refine (Tells.changeOption hself c.target).bind fun target =>
      (Tells.changeListing hself c.args).bind fun args => .pure ?_
    cases target <;> cases args <;> rfl
  | create c =>
    refine (typeName_tells hcount depth c.type).bind fun type =>
      (Tells.changeListing hself c.args).bind fun args => .pure ?_
    cases type <;> cases args <;> rfl
  | binary b =>
    refine (hself b.left).bind fun left => (hself b.right).bind fun right => .pure ?_
    cases left <;> cases right <;> rfl
  | parens p => exact (hself p.inner).map _

theorem expr_tells (e : Expr) : Tells count false (Pass.expr h depth e) :=
  Tells.approx (fun _ hself e =>
    Tells.changeNode (hcount.expr e) (belowExpr_tells hcount depth hself)) depth e

theorem initializer_tells (i : Initializer) : Tells count false (initializer h depth i) :=
  (expr_tells hcount depth i.value).map _

theorem varDecl_tells (v : Variable) : Tells count false (varDecl h depth v) := by
  refine (typeName_tells hcount depth v.type).bind fun type =>
    (Tells.changeOption (initializer_tells hcount depth) v.value).bind fun value => .pure ?_
  cases type <;> cases value <;> rfl

theorem stmtOf_tells {self : Block → Pass σ (Option Block)}
    (hself : ∀ b, Tells count false (self b)) (x : Stmt) :
    Tells count false (stmtOf h depth self x) := by
  cases x with
  | expr x => exact (expr_tells hcount depth x.expr).map _
  | localVar v => exact (varDecl_tells hcount depth v).map _
  | ret x => exact (Tells.changeOption (expr_tells hcount depth) x.value).map _
  | block b => exact (hself b).map _

theorem block_tells (b : Block) : Tells count false (Pass.block h depth b) :=
  Tells.approx (fun _ hself b =>
    (Tells.changeEach (stmtOf_tells hcount depth hself) b.statements).map _) depth b

theorem methodBody_tells (b : MethodBody) : Tells count false (methodBody h depth b) := by
  cases b with
  | block b => exact (block_tells hcount depth b).map _
  | absent semi => exact .pure rfl

theorem param_tells (p : Param) : Tells count false (param h depth p) :=
  (typeName_tells hcount depth p.type).map _

theorem method_tells (m : Method) : Tells count false (method h depth m) := by
  refine (Tells.changeOption (typeName_tells hcount depth) m.returnType).bind fun returnType =>
    (Tells.changeListing (param_tells hcount depth) m.params).bind fun params =>
    (methodBody_tells hcount depth m.body).bind fun body => .pure ?_
  cases returnType <;> cases params <;> cases body <;> rfl

theorem memberOf_tells {self : TypeDecl → Pass σ (Option TypeDecl)}
    (hself : ∀ d, Tells count false (self d)) (x : Member) :
    Tells count false (memberOf h depth self x) := by
  cases x with
  | field v => exact (varDecl_tells hcount depth v).map _
  | method m => exact (method_tells hcount depth m).map _
  | type d => exact (hself d).map _

theorem belowTypeDecl_tells {self : TypeDecl → Pass σ (Option TypeDecl)}
    (hself : ∀ d, Tells count false (self d)) (d : TypeDecl) :
    Tells count false (belowTypeDecl h depth self d) := by
  have hbody : Tells count false (typeBodyOf h depth self d.body) :=
    (Tells.changeEach (memberOf_tells hcount depth hself) d.body.members).map _
  have harguments := typeArgumentsOf_tells (typeName_tells hcount depth)
  refine (Tells.changeOption harguments d.typeParams).bind fun typeParams =>
    (Tells.changeOption (typeClause_tells hcount depth) d.extending).bind fun extending =>
    (Tells.changeOption (typeClause_tells hcount depth) d.implementing).bind fun implementing =>
    hbody.bind fun body => .pure ?_
  cases typeParams <;> cases extending <;> cases implementing <;> cases body <;> rfl

theorem typeDecl_tells (d : TypeDecl) : Tells count false (Pass.typeDecl h depth d) :=
  Tells.approx (fun _ hself d =>
    Tells.changeNode (hcount.typeDecl d) (belowTypeDecl_tells hcount depth hself)) depth d

/-- **A pass gives a changed module exactly when its hooks have replaced a node.** -/
theorem transform_tells (m : Module) : Tells count false (m.transform h depth) :=
  (Tells.changeEach (typeDecl_tells hcount depth) m.types).map _

end Counting

end Pass

end Migration
