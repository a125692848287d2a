import Migration.Traversal.Transform

/-!
# What a pass does to a tree

A pass threads a state through a tree and replaces nodes as its hooks say. Here it is said once what
comes of a tree, so that nothing about a pass is proved through its loops again. A `Change` relates
a state and a part before to a state and a part after. From changes of expressions, blocks and type
declarations those of all other nodes are built (`Change.Each`, `Change.Stmt`, `Change.Member`, …),
and `Respects` lists what three such changes need so that a pass keeps to them. No hook here replaces
a use of a type, so these stay as they are.

Main result: a pass over a module changes its types as the hooks do (`transform_each`).
-/

namespace Migration

/-- A state and a part before, and a state and a part after. -/
abbrev Change (σ α : Type) := σ → α → σ → α → Prop

namespace Change

variable {σ α : Type}

/-- The items of a list change one after the other. -/
inductive Each (R : Change σ α) : Change σ (List α)
  | nil {s : σ} : Each R s [] s []
  | cons {s s₁ s₂ : σ} {x y : α} {xs ys : List α} :
      R s x s₁ y → Each R s₁ xs s₂ ys → Each R s (x :: xs) s₂ (y :: ys)

/-- A part that may be missing changes. -/
inductive Opt (R : Change σ α) : Change σ (Option α)
  | none {s : σ} : Opt R s none s none
  | some {s s' : σ} {x y : α} : R s x s' y → Opt R s (some x) s' (some y)

/-- An item of a comma-separated list changes. -/
inductive Item (R : Change σ α) : Change σ (Padded α)
  | mk {s s' : σ} {x y : α} {after : Trivia} : R s x s' y → Item R s ⟨x, after⟩ s' ⟨y, after⟩

/-- The items between brackets change. -/
inductive Bracketed (R : Change σ α) : Change σ (Listing α)
  | mk {s s' : σ} {xs ys : List (Padded α)} {lead close : Trivia} :
      Each (Item R) s xs s' ys → Bracketed R s ⟨lead, xs, close⟩ s' ⟨lead, ys, close⟩

/-- What is directly below an expression changes. -/
inductive Below (E : Change σ Expr) : Change σ Expr
  | name {s : σ} {i : Ident} : Below E s (.name i) s (.name i)
  | literal {s : σ} {l : Literal} : Below E s (.literal l) s (.literal l)
  | access {s s' : σ} {a : FieldAccess} {target : Expr} :
      E s a.target s' target → Below E s (.access a) s' (.access { a with target })
  | call {s s₁ s₂ : σ} {c : MethodCall} {target : Option Expr} {args : Listing Expr} :
      Opt E s c.target s₁ target → Bracketed E s₁ c.args s₂ args →
      Below E s (.call c) s₂ (.call { c with target, args })
  | create {s s' : σ} {c : Creation} {args : Listing Expr} :
      Bracketed E s c.args s' args → Below E s (.create c) s' (.create { c with args })
  | binary {s s₁ s₂ : σ} {b : Binary} {left right : Expr} :
      E s b.left s₁ left → E s₁ b.right s₂ right →
      Below E s (.binary b) s₂ (.binary { b with left, right })
  | parens {s s' : σ} {p : Parens} {inner : Expr} :
      E s p.inner s' inner → Below E s (.parens p) s' (.parens { p with inner })

/-- The value of an initializer changes. -/
inductive Init (E : Change σ Expr) : Change σ Initializer
  | mk {s s' : σ} {x y : Expr} {lead : Trivia} : E s x s' y → Init E s ⟨lead, x⟩ s' ⟨lead, y⟩

/-- The value of a variable changes. -/
inductive Var (E : Change σ Expr) : Change σ Variable
  | mk {s s' : σ} {v : Variable} {value : Option Initializer} :
      Opt (Init E) s v.value s' value → Var E s v s' { v with value }

/-- A statement changes. -/
inductive Stmt (E : Change σ Expr) (B : Change σ Block) : Change σ Migration.Stmt
  | expr {s s' : σ} {x : ExprStmt} {expr : Expr} :
      E s x.expr s' expr → Stmt E B s (.expr x) s' (.expr { x with expr })
  | localVar {s s' : σ} {v w : Variable} :
      Var E s v s' w → Stmt E B s (.localVar v) s' (.localVar w)
  | ret {s s' : σ} {x : Return} {value : Option Expr} :
      Opt E s x.value s' value → Stmt E B s (.ret x) s' (.ret { x with value })
  | block {s s' : σ} {b c : Block} : B s b s' c → Stmt E B s (.block b) s' (.block c)

/-- What follows the parameters of a method changes. -/
inductive Body (B : Change σ Block) : Change σ MethodBody
  | block {s s' : σ} {b c : Block} : B s b s' c → Body B s (.block b) s' (.block c)
  | absent {s : σ} {semi : Trivia} : Body B s (.absent semi) s (.absent semi)

/-- A member of a type changes. -/
inductive Member (E : Change σ Expr) (B : Change σ Block) (D : Change σ TypeDecl) :
    Change σ Migration.Member
  | field {s s' : σ} {v w : Variable} : Var E s v s' w → Member E B D s (.field v) s' (.field w)
  | method {s s' : σ} {m : Method} {body : MethodBody} :
      Body B s m.body s' body → Member E B D s (.method m) s' (.method { m with body })
  | type {s s' : σ} {d e : TypeDecl} : D s d s' e → Member E B D s (.type d) s' (.type e)

/-- Neither the state nor the part changes. -/
def Same : Change σ α := fun s x s' y => y = x ∧ s' = s

theorem Each.same {s s' : σ} {xs ys : List α} (h : Each Same s xs s' ys) : Same s xs s' ys := by
  induction h with
  | nil => exact ⟨rfl, rfl⟩
  | cons hx _ ih =>
    obtain ⟨rfl, rfl⟩ := hx
    obtain ⟨rfl, rfl⟩ := ih
    exact ⟨rfl, rfl⟩

theorem Opt.same {s s' : σ} {x y : Option α} (h : Opt Same s x s' y) : Same s x s' y := by
  cases h with
  | none => exact ⟨rfl, rfl⟩
  | some hx =>
    obtain ⟨rfl, rfl⟩ := hx
    exact ⟨rfl, rfl⟩

theorem Each.mono {R R' : Change σ α} (hR : ∀ {s x s' y}, R s x s' y → R' s x s' y) {s s' : σ}
    {xs ys : List α} (h : Each R s xs s' ys) : Each R' s xs s' ys := by
  induction h with
  | nil => exact .nil
  | cons hx _ ih => exact .cons (hR hx) ih

theorem Item.same {s s' : σ} {x y : Padded α} (h : Item Same s x s' y) : Same s x s' y := by
  obtain ⟨rfl, rfl⟩ := h
  exact ⟨rfl, rfl⟩

theorem Each.items_same {s s' : σ} {xs ys : List (Padded α)} (h : Each (Item Same) s xs s' ys) :
    Same s xs s' ys := (h.mono Item.same).same

theorem Bracketed.same {s s' : σ} {x y : Listing α} (h : Bracketed Same s x s' y) :
    Same s x s' y := by
  obtain ⟨hitems⟩ := h
  obtain ⟨rfl, rfl⟩ := hitems.items_same
  exact ⟨rfl, rfl⟩

theorem Below.access_inv {E : Change σ Expr} {s s' : σ} {a : FieldAccess} {y : Expr}
    (h : Below E s (.access a) s' y) :
    ∃ target, E s a.target s' target ∧ y = .access { a with target } := by
  cases h with
  | access htarget => exact ⟨_, htarget, rfl⟩

theorem Below.same {s s' : σ} {x y : Expr} (h : Below Same s x s' y) : Same s x s' y := by
  cases h with
  | name => exact ⟨rfl, rfl⟩
  | literal => exact ⟨rfl, rfl⟩
  | @access _ _ a _ htarget =>
    obtain ⟨rfl, rfl⟩ := htarget
    obtain ⟨_, _, _, _, _⟩ := a
    exact ⟨rfl, rfl⟩
  | @call _ _ _ c _ _ htarget hargs =>
    obtain ⟨rfl, rfl⟩ := htarget.same
    obtain ⟨rfl, rfl⟩ := hargs.same
    obtain ⟨_, _, _, _, _⟩ := c
    exact ⟨rfl, rfl⟩
  | @create _ _ c _ hargs =>
    obtain ⟨rfl, rfl⟩ := hargs.same
    obtain ⟨_, _, _, _⟩ := c
    exact ⟨rfl, rfl⟩
  | @binary _ _ _ b _ _ hleft hright =>
    obtain ⟨rfl, rfl⟩ := hleft
    obtain ⟨rfl, rfl⟩ := hright
    obtain ⟨_, _, _, _, _⟩ := b
    exact ⟨rfl, rfl⟩
  | @parens _ _ p _ hinner =>
    obtain ⟨rfl, rfl⟩ := hinner
    obtain ⟨_, _, _, _⟩ := p
    exact ⟨rfl, rfl⟩

theorem Init.same {s s' : σ} {x y : Initializer} (h : Init Same s x s' y) : Same s x s' y := by
  obtain ⟨rfl, rfl⟩ := h
  exact ⟨rfl, rfl⟩

theorem Opt.mono {R R' : Change σ α} (hR : ∀ {s x s' y}, R s x s' y → R' s x s' y) {s s' : σ}
    {x y : Option α} (h : Opt R s x s' y) : Opt R' s x s' y := by
  cases h with
  | none => exact .none
  | some hx => exact .some (hR hx)

theorem Var.same {s s' : σ} {v w : Variable} (h : Var Same s v s' w) : Same s v s' w := by
  obtain ⟨hvalue⟩ := h
  obtain ⟨rfl, rfl⟩ := (hvalue.mono Init.same).same
  exact ⟨rfl, rfl⟩

theorem Stmt.same {s s' : σ} {x y : Migration.Stmt} (h : Stmt Same Same s x s' y) :
    Same s x s' y := by
  cases h with
  | expr hx =>
    obtain ⟨rfl, rfl⟩ := hx
    exact ⟨rfl, rfl⟩
  | localVar hv =>
    obtain ⟨rfl, rfl⟩ := hv.same
    exact ⟨rfl, rfl⟩
  | ret hx =>
    obtain ⟨rfl, rfl⟩ := hx.same
    exact ⟨rfl, rfl⟩
  | block hb =>
    obtain ⟨rfl, rfl⟩ := hb
    exact ⟨rfl, rfl⟩

theorem Each.block_same {s s' : σ} {b : Block} {statements : List Migration.Stmt}
    (h : Each (Stmt Same Same) s b.statements s' statements) :
    Same s b s' { b with statements } := by
  obtain ⟨rfl, rfl⟩ := (h.mono Stmt.same).same
  obtain ⟨_, _, _, _⟩ := b
  exact ⟨rfl, rfl⟩

end Change

namespace Pass

open Change (Each Opt Item Bracketed Below Same)

variable {σ α β : Type}

/-! ### Passes one step at a time -/

theorem bind_eq_some {p : Pass σ α} {k : α → Pass σ β} {s : σ} {b : β × σ} :
    (p >>= k) s = some b ↔ ∃ a s₁, p s = some (a, s₁) ∧ k a s₁ = some b := by
  change (p s).bind (fun q => k q.1 q.2) = some b ↔ _
  rw [Option.bind_eq_some_iff, Prod.exists]

theorem pure_eq_some {a b : α} {s s' : σ} :
    (pure a : Pass σ α) s = some (b, s') ↔ b = a ∧ s' = s := by
  change some (a, s) = some (b, s') ↔ _
  rw [Option.some.injEq, Prod.mk.injEq, eq_comm, @eq_comm _ s]

/-- Where `f` gives a result at all, it changes what it is given as `R` says. -/
def Keeps (R : Change σ α) (f : α → Pass σ (Option α)) : Prop :=
  ∀ x s r s', f x s = some (r, s') → R s x s' (r.getD x)

variable {R : Change σ α} {f : α → Pass σ (Option α)}

theorem getD_unless {kept : Bool} {x z : α} (h : kept = true → z = x) :
    (if kept = true then none else some z).getD x = z := by
  split
  · next hk => rw [h hk, Option.getD_none]
  · rfl

theorem Keeps.changeEach (hf : Keeps R f) : Keeps (Each R) (changeEach f) := by
  intro xs
  induction xs with
  | nil =>
    intro s r s' h
    obtain ⟨rfl, rfl⟩ := pure_eq_some.mp h
    exact .nil
  | cons x xs ih =>
    intro s r s' h
    obtain ⟨y, s₁, hy, h⟩ := bind_eq_some.mp h
    obtain ⟨ys, s₂, hys, h⟩ := bind_eq_some.mp h
    obtain ⟨rfl, rfl⟩ := pure_eq_some.mp h
    rw [getD_unless]
    · exact .cons (hf x s y s₁ hy) (ih s₁ ys s' hys)
    · intro hnone
      simp only [Bool.and_eq_true, Option.isNone_iff_eq_none] at hnone
      rw [hnone.1, hnone.2]
      rfl

/-- A node in which one part is changed: `g` gives the part, and `p` puts another one in its place. -/
theorem Keeps.part {S : Change σ β} {g : β → α} {p : β → α → β} (hf : Keeps R f)
    (hself : ∀ x, p x (g x) = x) (hS : ∀ {s x s' y}, R s (g x) s' y → S s x s' (p x y)) :
    Keeps S fun x => do return (← f (g x)).map (p x) := by
  intro x s r s' h
  obtain ⟨y, s₁, hy, h⟩ := bind_eq_some.mp h
  obtain ⟨rfl, rfl⟩ := pure_eq_some.mp h
  have hx := hS (hf (g x) s y s' hy)
  cases y with
  | none =>
    rw [Option.getD_none, hself] at hx
    exact hx
  | some y => exact hx

theorem Keeps.mono {S : Change σ α} (hf : Keeps R f) (hS : ∀ {s x s' y}, R s x s' y → S s x s' y) :
    Keeps S f := fun x s r s' h => hS (hf x s r s' h)

theorem Keeps.part_same {g : β → α} {p : β → α → β} (hf : Keeps Same f)
    (hself : ∀ x, p x (g x) = x) : Keeps Same fun x => do return (← f (g x)).map (p x) := by
  refine hf.part hself ?_
  rintro s x s' y ⟨rfl, rfl⟩
  exact ⟨hself x, rfl⟩

theorem Keeps.changeItems (hf : Keeps R f) : Keeps (Each (Item R)) (changeItems f) :=
  Keeps.changeEach (hf.part (g := Padded.elem) (p := fun x elem => { x with elem }) (fun _ => rfl)
    fun h => .mk h)

theorem Keeps.changeListing (hf : Keeps R f) : Keeps (Bracketed R) (changeListing f) :=
  hf.changeItems.part (g := Listing.items) (p := fun l items => { l with items }) (fun _ => rfl)
    fun h => .mk h

theorem Keeps.changeOption (hf : Keeps R f) : Keeps (Opt R) (changeOption f) := by
  intro o s r s' h
  cases o with
  | none =>
    obtain ⟨rfl, rfl⟩ := pure_eq_some.mp h
    exact .none
  | some x =>
    obtain ⟨y, s₁, hy, h⟩ := bind_eq_some.mp h
    obtain ⟨rfl, rfl⟩ := pure_eq_some.mp h
    have hsome : Opt R s (some x) s' (some (y.getD x)) := .some (hf x s y s' hy)
    cases y with
    | none => exact hsome
    | some y => exact hsome

/-- **What one round keeps, every depth keeps.** -/
theorem Keeps.approx {F : (α → Pass σ (Option α)) → α → Pass σ (Option α)}
    (hF : ∀ self, Keeps R self → Keeps R (F self)) (n : Nat) : Keeps R (approx F n) := by
  induction n with
  | zero =>
    intro x s r s' h
    cases h
  | succ n ih => exact hF _ ih

/-! ### Parts without replacements -/

variable {h : Hooks σ} (depth : Nat)

theorem typeArgumentsOf_same {type : TypeName → Pass σ (Option TypeName)} (ht : Keeps Same type) :
    Keeps Same (typeArgumentsOf type) :=
  (ht.changeListing.mono Bracketed.same).part_same (g := TypeArguments.list)
    (p := fun a list => { a with list }) fun ⟨_, _⟩ => rfl

variable (hquiet : ∀ t s, h.typeName t s = (none, s))

include hquiet in
theorem typeName_same : Keeps Same (typeName h depth) := by
  refine Keeps.approx (fun self hself t s r s' hrun => ?_) depth
  obtain ⟨replaced, s₁, hask, hrun⟩ := bind_eq_some.mp hrun
  rw [ask, hquiet, Option.some.injEq, Prod.mk.injEq] at hask
  obtain ⟨rfl, rfl⟩ := hask
  obtain ⟨below, s₂, hbelow, hrun⟩ := bind_eq_some.mp hrun
  obtain ⟨rfl, rfl⟩ := pure_eq_some.mp hrun
  have hargs := ((typeArgumentsOf_same hself).changeOption.mono Opt.same).part_same
    (g := TypeName.args) (p := TypeName.withArgs) fun ⟨_, _, _, _, _⟩ => rfl
  rw [Option.or_none]
  exact hargs t s below s' hbelow

include hquiet in
theorem typeClause_same : Keeps Same (typeClause h depth) :=
  ((typeName_same depth hquiet).changeItems.mono Each.items_same).part_same (g := TypeClause.types)
    (p := fun c types => { c with types }) fun _ => rfl

include hquiet in
theorem param_same : Keeps Same (param h depth) :=
  (typeName_same depth hquiet).part_same (g := Param.type) (p := fun x type => { x with type })
    fun _ => rfl

/-! ### Expressions -/

include hquiet in
theorem belowExpr_keeps {E : Change σ Expr} {self : Expr → Pass σ (Option Expr)}
    (hself : Keeps E self) : Keeps (Below E) (belowExpr h depth self) := by
  intro e s r s' hrun
  cases e with
  | name i =>
    obtain ⟨rfl, rfl⟩ := pure_eq_some.mp hrun
    exact .name
  | literal l =>
    obtain ⟨rfl, rfl⟩ := pure_eq_some.mp hrun
    exact .literal
  | access a =>
    obtain ⟨id, member, dot, name, owner⟩ := a
    obtain ⟨target, s₁, htarget, hrun⟩ := bind_eq_some.mp hrun
    obtain ⟨rfl, rfl⟩ := pure_eq_some.mp hrun
    have hchange := Below.access (a := ⟨id, member, dot, name, owner⟩)
      (hself member s target s' htarget)
    cases target with
    | none => exact hchange
    | some target => exact hchange
  | call c =>
    obtain ⟨id, receiver, dot, name, list⟩ := c
    obtain ⟨target, s₁, htarget, hrun⟩ := bind_eq_some.mp hrun
    obtain ⟨args, s₂, hargs, hrun⟩ := bind_eq_some.mp hrun
    obtain ⟨rfl, rfl⟩ := pure_eq_some.mp hrun
    rw [getD_unless]
    · exact .call (hself.changeOption receiver s target s₁ htarget)
        (hself.changeListing list s₁ args s' hargs)
    · intro hnone
      simp only [Bool.and_eq_true, Option.isNone_iff_eq_none] at hnone
      rw [hnone.1, hnone.2]
      rfl
  | create c =>
    obtain ⟨id, lead, created, list⟩ := c
    obtain ⟨type, s₁, htype, hrun⟩ := bind_eq_some.mp hrun
    obtain ⟨args, s₂, hargs, hrun⟩ := bind_eq_some.mp hrun
    obtain ⟨rfl, rfl⟩ := pure_eq_some.mp hrun
    obtain ⟨hsame, rfl⟩ := typeName_same depth hquiet created s type s₁ htype
    rw [hsame, getD_unless]
    · exact .create (hself.changeListing list s₁ args s' hargs)
    · intro hnone
      simp only [Bool.and_eq_true, Option.isNone_iff_eq_none] at hnone
      rw [hnone.2]
      rfl
  | binary b =>
    obtain ⟨id, first, opLead, op, second⟩ := b
    obtain ⟨left, s₁, hleft, hrun⟩ := bind_eq_some.mp hrun
    obtain ⟨right, s₂, hright, hrun⟩ := bind_eq_some.mp hrun
    obtain ⟨rfl, rfl⟩ := pure_eq_some.mp hrun
    rw [getD_unless]
    · exact .binary (hself first s left s₁ hleft) (hself second s₁ right s' hright)
    · intro hnone
      simp only [Bool.and_eq_true, Option.isNone_iff_eq_none] at hnone
      rw [hnone.1, hnone.2]
      rfl
  | parens p =>
    obtain ⟨id, lead, content, close⟩ := p
    obtain ⟨inner, s₁, hinner, hrun⟩ := bind_eq_some.mp hrun
    obtain ⟨rfl, rfl⟩ := pure_eq_some.mp hrun
    have hchange := Below.parens (p := ⟨id, lead, content, close⟩)
      (hself content s inner s' hinner)
    cases inner with
    | none => exact hchange
    | some inner => exact hchange

/-- What changes of expressions, blocks and type declarations have to allow so that a pass with the
hooks `h` keeps to them. -/
structure Respects (h : Hooks σ) (E : Change σ Expr) (B : Change σ Block)
    (D : Change σ TypeDecl) : Prop where
  quiet : ∀ t s, h.typeName t s = (none, s)
  /-- An expression is replaced or not, and then what is below changes. -/
  expr {s s₁ s₂ : σ} {x y : Expr} {r : Option Expr} :
    askExpr h x s = some (r, s₁) → Below E s₁ (r.getD x) s₂ y → E s x s₂ y
  block {s s' : σ} {b : Block} {statements : List Stmt} :
    Each (Change.Stmt E B) s b.statements s' statements → B s b s' { b with statements }
  /-- A type declaration is replaced or not, and then its members change. -/
  decl {s s₁ s₂ : σ} {d : TypeDecl} {r : Option TypeDecl} {members : List Member} :
    h.typeDecl d s = (r, s₁) → Each (Change.Member E B D) s₁ (r.getD d).body.members s₂ members →
    D s d s₂ { r.getD d with body := { (r.getD d).body with members } }

namespace Respects

variable {E : Change σ Expr} {B : Change σ Block} {D : Change σ TypeDecl}
  (hR : Respects h E B D)

include hR

theorem expr_keeps : Keeps E (Pass.expr h depth) := by
  refine Keeps.approx (fun self hself x s r s' hrun => ?_) depth
  obtain ⟨replaced, s₁, hask, hrun⟩ := bind_eq_some.mp hrun
  obtain ⟨below, s₂, hbelow, hrun⟩ := bind_eq_some.mp hrun
  obtain ⟨rfl, rfl⟩ := pure_eq_some.mp hrun
  have hchange := hR.expr hask (belowExpr_keeps depth hR.quiet hself _ s₁ below s' hbelow)
  cases below with
  | none => exact hchange
  | some y => exact hchange

theorem var_keeps : Keeps (Change.Var E) (varDecl h depth) := by
  intro v s r s' hrun
  obtain ⟨type, s₁, htype, hrun⟩ := bind_eq_some.mp hrun
  obtain ⟨value, s₂, hvalue, hrun⟩ := bind_eq_some.mp hrun
  obtain ⟨rfl, rfl⟩ := pure_eq_some.mp hrun
  obtain ⟨hsame, rfl⟩ := typeName_same depth hR.quiet v.type s type s₁ htype
  have hinit : Keeps (Change.Init E) (initializer h depth) :=
    (expr_keeps depth hR).part (g := Initializer.value) (p := fun i value => { i with value })
      (fun _ => rfl) fun h => .mk h
  rw [hsame, getD_unless]
  · exact .mk (hinit.changeOption v.value s₁ value s' hvalue)
  · intro hnone
    simp only [Bool.and_eq_true, Option.isNone_iff_eq_none] at hnone
    rw [hnone.2]
    rfl

theorem stmt_keeps {self : Block → Pass σ (Option Block)} (hself : Keeps B self) :
    Keeps (Change.Stmt E B) (stmtOf h depth self) := by
  intro x s r s' hrun
  cases x with
  | expr x =>
    obtain ⟨y, s₁, hy, hrun⟩ := bind_eq_some.mp hrun
    obtain ⟨rfl, rfl⟩ := pure_eq_some.mp hrun
    have hchange : Change.Stmt E B s (.expr x) s' _ := .expr (expr_keeps depth hR x.expr s y s' hy)
    cases y <;> exact hchange
  | localVar v =>
    obtain ⟨w, s₁, hw, hrun⟩ := bind_eq_some.mp hrun
    obtain ⟨rfl, rfl⟩ := pure_eq_some.mp hrun
    have hchange : Change.Stmt E B s (.localVar v) s' _ := .localVar (var_keeps depth hR v s w s' hw)
    cases w <;> exact hchange
  | ret x =>
    obtain ⟨y, s₁, hy, hrun⟩ := bind_eq_some.mp hrun
    obtain ⟨rfl, rfl⟩ := pure_eq_some.mp hrun
    have hchange : Change.Stmt E B s (.ret x) s' _ :=
      .ret ((expr_keeps depth hR).changeOption x.value s y s' hy)
    cases y <;> exact hchange
  | block b =>
    obtain ⟨c, s₁, hc, hrun⟩ := bind_eq_some.mp hrun
    obtain ⟨rfl, rfl⟩ := pure_eq_some.mp hrun
    have hchange : Change.Stmt E B s (.block b) s' _ := .block (hself b s c s' hc)
    cases c <;> exact hchange

theorem block_keeps : Keeps B (Pass.block h depth) := by
  refine Keeps.approx (fun self hself => ?_) depth
  exact (stmt_keeps depth hR hself).changeEach.part (g := Block.statements)
    (p := fun b statements => { b with statements }) (fun ⟨_, _, _, _⟩ => rfl) hR.block

theorem body_keeps : Keeps (Change.Body B) (methodBody h depth) := by
  intro x s r s' hrun
  cases x with
  | block b =>
    obtain ⟨c, s₁, hc, hrun⟩ := bind_eq_some.mp hrun
    obtain ⟨rfl, rfl⟩ := pure_eq_some.mp hrun
    have hchange : Change.Body B s (.block b) s' _ := .block (block_keeps depth hR b s c s' hc)
    cases c <;> exact hchange
  | absent semi =>
    obtain ⟨rfl, rfl⟩ := pure_eq_some.mp hrun
    exact .absent

theorem method_keeps {m : Method} {s s' : σ} {r : Option Method}
    (hrun : method h depth m s = some (r, s')) :
    ∃ body, Change.Body B s m.body s' body ∧ r.getD m = { m with body } := by
  obtain ⟨type, s₁, htype, hrun⟩ := bind_eq_some.mp hrun
  obtain ⟨params, s₂, hparams, hrun⟩ := bind_eq_some.mp hrun
  obtain ⟨body, s₃, hbody, hrun⟩ := bind_eq_some.mp hrun
  obtain ⟨rfl, rfl⟩ := pure_eq_some.mp hrun
  obtain ⟨hsame, rfl⟩ :=
    ((typeName_same depth hR.quiet).changeOption m.returnType s type s₁ htype).same
  obtain ⟨hsames, rfl⟩ :=
    ((param_same depth hR.quiet).changeListing m.params s₁ params s₂ hparams).same
  refine ⟨body.getD m.body, body_keeps depth hR m.body s₂ body s' hbody, ?_⟩
  rw [hsame, hsames, getD_unless]
  intro hnone
  simp only [Bool.and_eq_true, Option.isNone_iff_eq_none] at hnone
  rw [hnone.2]
  rfl

theorem member_keeps {self : TypeDecl → Pass σ (Option TypeDecl)} (hself : Keeps D self) :
    Keeps (Change.Member E B D) (memberOf h depth self) := by
  intro x s r s' hrun
  cases x with
  | field v =>
    obtain ⟨w, s₁, hw, hrun⟩ := bind_eq_some.mp hrun
    obtain ⟨rfl, rfl⟩ := pure_eq_some.mp hrun
    have hchange : Change.Member E B D s (.field v) s' _ := .field (var_keeps depth hR v s w s' hw)
    cases w <;> exact hchange
  | method m =>
    obtain ⟨y, s₁, hy, hrun⟩ := bind_eq_some.mp hrun
    obtain ⟨rfl, rfl⟩ := pure_eq_some.mp hrun
    obtain ⟨body, hbody, hm⟩ := method_keeps depth hR hy
    have hchange : Change.Member E B D s (.method m) s' (.method (y.getD m)) := by
      rw [hm]
      exact .method hbody
    cases y <;> exact hchange
  | type d =>
    obtain ⟨e, s₁, he, hrun⟩ := bind_eq_some.mp hrun
    obtain ⟨rfl, rfl⟩ := pure_eq_some.mp hrun
    have hchange : Change.Member E B D s (.type d) s' _ := .type (hself d s e s' he)
    cases e <;> exact hchange

/-- Below a type declaration only the members change. -/
theorem belowTypeDecl_keeps {self : TypeDecl → Pass σ (Option TypeDecl)} (hself : Keeps D self)
    {d : TypeDecl} {s s' : σ} {r : Option TypeDecl}
    (hrun : belowTypeDecl h depth self d s = some (r, s')) :
    ∃ members, Each (Change.Member E B D) s d.body.members s' members
      ∧ r.getD d = { d with body := { d.body with members } } := by
  obtain ⟨typeParams, s₁, hparams, hrun⟩ := bind_eq_some.mp hrun
  obtain ⟨extending, s₂, hextending, hrun⟩ := bind_eq_some.mp hrun
  obtain ⟨implementing, s₃, himplementing, hrun⟩ := bind_eq_some.mp hrun
  obtain ⟨body, s₄, hbody, hrun⟩ := bind_eq_some.mp hrun
  obtain ⟨rfl, rfl⟩ := pure_eq_some.mp hrun
  obtain ⟨hsame₁, rfl⟩ := ((typeArgumentsOf_same
    (typeName_same depth hR.quiet)).changeOption d.typeParams s typeParams s₁ hparams).same
  obtain ⟨hsame₂, rfl⟩ :=
    ((typeClause_same depth hR.quiet).changeOption d.extending s₁ extending s₂ hextending).same
  obtain ⟨hsame₃, rfl⟩ := ((typeClause_same depth hR.quiet).changeOption d.implementing s₂
    implementing s₃ himplementing).same
  obtain ⟨members, s₅, hmembers, hbody⟩ := bind_eq_some.mp hbody
  obtain ⟨rfl, rfl⟩ := pure_eq_some.mp hbody
  refine ⟨members.getD d.body.members,
    (member_keeps depth hR hself).changeEach d.body.members s₃ members s' hmembers, ?_⟩
  obtain ⟨id, lead, modifiers, kindLead, kind, name, params, extends', implements', content⟩ := d
  obtain ⟨bodyId, bodyLead, inside, close⟩ := content
  rw [hsame₁, hsame₂, hsame₃, getD_unless]
  · cases members <;> rfl
  · intro hnone
    simp only [Bool.and_eq_true, Option.isNone_iff_eq_none] at hnone
    rw [hnone.2]
    rfl

theorem typeDecl_keeps : Keeps D (Pass.typeDecl h depth) := by
  refine Keeps.approx (fun self hself d s r s' hrun => ?_) depth
  obtain ⟨replaced, s₁, hask, hrun⟩ := bind_eq_some.mp hrun
  obtain ⟨below, s₂, hbelow, hrun⟩ := bind_eq_some.mp hrun
  obtain ⟨rfl, rfl⟩ := pure_eq_some.mp hrun
  obtain ⟨members, hmembers, hd⟩ := belowTypeDecl_keeps depth hR hself hbelow
  have hchange := hR.decl (Option.some.inj hask) hmembers
  rw [← hd] at hchange
  cases below with
  | none => exact hchange
  | some y => exact hchange

/-- **A pass over a module changes its types** one after the other, and nothing else. -/
theorem transform_each {m : Module} {s s' : σ} {r : Option Module}
    (hrun : m.transform h depth s = some (r, s')) :
    ∃ types, Each D s m.types s' types ∧ r.getD m = { m with types } := by
  obtain ⟨types, s₁, htypes, hrun⟩ := bind_eq_some.mp hrun
  obtain ⟨rfl, rfl⟩ := pure_eq_some.mp hrun
  refine ⟨types.getD m.types, (typeDecl_keeps depth hR).changeEach m.types s types s' htypes, ?_⟩
  cases types <;> rfl

end Respects

end Pass

end Migration
