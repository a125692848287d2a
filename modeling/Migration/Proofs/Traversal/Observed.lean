import Migration.Proofs.Traversal.Transform

/-!
# Watching a pass

What a pass asks its hooks, and in which order, cannot be read off its result. So the hooks are wrapped:
`Hooks.observed` answers as before and keeps an account of every call beside the state, a list of the
calls (`Hooks.logged`) or a count. The account has no influence on the run: a watched pass, with its
account struck out, is the pass itself (`transform_forgets`).
-/

namespace Migration

/-- A question that a pass asked a hook, with the answer. -/
inductive HookCall where
  | typeDecl (node : TypeDecl) (answer : Option TypeDecl)
  | typeName (node : TypeName) (answer : Option TypeName)
  | nameExpr (node : Ident) (answer : Option Expr)
  | access (node : FieldAccess) (answer : Option Expr)
  | call (node : MethodCall) (answer : Option Expr)

/-- The hook replaced the node. -/
def HookCall.replaces : HookCall → Bool
  | .typeDecl _ answer => answer.isSome
  | .typeName _ answer => answer.isSome
  | .nameExpr _ answer => answer.isSome
  | .access _ answer => answer.isSome
  | .call _ answer => answer.isSome

namespace Hooks

variable {σ ω α : Type}

/-- Ask a hook, and note the call. -/
def observe (note : ω → HookCall → ω) (call : Option α → HookCall) (hook : σ → Option α × σ)
    (s : σ × ω) : Option α × (σ × ω) :=
  ((hook s.1).1, ((hook s.1).2, note s.2 (call (hook s.1).1)))

/-- The same hooks, with an account of their calls beside the state. -/
def observed (h : Hooks σ) (note : ω → HookCall → ω) : Hooks (σ × ω) where
  typeDecl d := observe note (.typeDecl d) (h.typeDecl d)
  typeName t := observe note (.typeName t) (h.typeName t)
  nameExpr i := observe note (.nameExpr i) (h.nameExpr i)
  access a := observe note (.access a) (h.access a)
  call c := observe note (.call c) (h.call c)

/-- The same hooks, with a list of all calls in their order. -/
def logged (h : Hooks σ) : Hooks (σ × List HookCall) := h.observed fun calls c => calls ++ [c]

end Hooks

namespace Pass

variable {σ ω α β : Type}

/-! ### Striking out the account -/

/-- The pass `p` is `q` with an account beside its state. -/
def Forgets (p : Pass (σ × ω) α) (q : Pass σ α) : Prop :=
  ∀ s w, (p (s, w)).map (fun r => (r.1, r.2.1)) = q s

namespace Forgets

theorem pure (a : α) : Forgets (pure a : Pass (σ × ω) α) (pure a) := fun _ _ => rfl

theorem bind {p : Pass (σ × ω) α} {q : Pass σ α} {k : α → Pass (σ × ω) β} {l : α → Pass σ β}
    (hp : Forgets p q) (hk : ∀ a, Forgets (k a) (l a)) : Forgets (p >>= k) (q >>= l) := by
  intro s w
  change ((p (s, w)).bind fun r => k r.1 r.2).map _ = (q s).bind fun r => l r.1 r.2
  rw [← hp s w]
  cases p (s, w) with
  | none => rfl
  | some r =>
    obtain ⟨a, s₁, w₁⟩ := r
    exact hk a s₁ w₁

theorem ask (note : ω → HookCall → ω) (call : Option α → HookCall) (hook : σ → Option α × σ) :
    Forgets (Pass.ask (Hooks.observe note call hook)) (Pass.ask hook) := fun _ _ => rfl

theorem map {p : Pass (σ × ω) (Option α)} {q : Pass σ (Option α)} (hp : Forgets p q) (g : α → β) :
    Forgets (do return (← p).map g) (do return (← q).map g) := hp.bind fun _ => .pure _

variable {f : α → Pass (σ × ω) (Option α)} {g : α → Pass σ (Option α)}

theorem changeEach (hf : ∀ x, Forgets (f x) (g x)) (xs : List α) :
    Forgets (changeEach f xs) (changeEach g xs) := by
  induction xs with
  | nil => exact .pure _
  | cons x xs ih => exact (hf x).bind fun _ => ih.bind fun _ => .pure _

theorem changeItems (hf : ∀ x, Forgets (f x) (g x)) (xs : List (Padded α)) :
    Forgets (changeItems f xs) (changeItems g xs) := by
  refine Forgets.changeEach (fun x => ?_) xs
  exact (hf x.elem).map _

theorem changeListing (hf : ∀ x, Forgets (f x) (g x)) (l : Listing α) :
    Forgets (changeListing f l) (changeListing g l) := (Forgets.changeItems hf l.items).map _

theorem changeOption (hf : ∀ x, Forgets (f x) (g x)) (o : Option α) :
    Forgets (changeOption f o) (changeOption g o) := by
  cases o with
  | none => exact .pure _
  | some x => exact (hf x).map _

theorem changeNode {hook : Pass (σ × ω) (Option α)} {hook' : Pass σ (Option α)} {node : α}
    (hhook : Forgets hook hook') (hf : ∀ x, Forgets (f x) (g x)) :
    Forgets (do changeNode node (← hook) f) (do changeNode node (← hook') g) :=
  hhook.bind fun _ => (hf _).bind fun _ => .pure _

theorem approx {F : (α → Pass (σ × ω) (Option α)) → α → Pass (σ × ω) (Option α)}
    {G : (α → Pass σ (Option α)) → α → Pass σ (Option α)}
    (hF : ∀ f g, (∀ x, Forgets (f x) (g x)) → ∀ x, Forgets (F f x) (G g x)) (n : Nat) (x : α) :
    Forgets (approx F n x) (approx G n x) := by
  induction n generalizing x with
  | zero => exact fun _ _ => rfl
  | succ n ih => exact hF _ _ ih x

end Forgets

/-! ### The nodes -/

section Nodes

variable (h : Hooks σ) (note : ω → HookCall → ω) (depth : Nat)

theorem typeArgumentsOf_forgets {f : TypeName → Pass (σ × ω) (Option TypeName)}
    {g : TypeName → Pass σ (Option TypeName)} (hf : ∀ t, Forgets (f t) (g t)) (a : TypeArguments) :
    Forgets (typeArgumentsOf f a) (typeArgumentsOf g a) := (Forgets.changeListing hf a.list).map _

theorem typeName_forgets (t : TypeName) :
    Forgets (typeName (h.observed note) depth t) (typeName h depth t) := by
  refine Forgets.approx (fun f g hf t => ?_) depth t
  refine Forgets.changeNode (.ask note _ _) fun t => ?_
  exact (Forgets.changeOption (typeArgumentsOf_forgets hf) t.args).map _

theorem typeClause_forgets (c : TypeClause) :
    Forgets (typeClause (h.observed note) depth c) (typeClause h depth c) :=
  (Forgets.changeItems (typeName_forgets h note depth) c.types).map _

theorem belowExpr_forgets {f : Expr → Pass (σ × ω) (Option Expr)} {g : Expr → Pass σ (Option Expr)}
    (hf : ∀ e, Forgets (f e) (g e)) (e : Expr) :
    Forgets (belowExpr (h.observed note) depth f e) (belowExpr h depth g e) := by
  cases e with
  | name i => exact .pure _
  | literal l => exact .pure _
  | access a => exact (hf a.target).map _
  | call c =>
    exact (Forgets.changeOption hf c.target).bind fun _ =>
      (Forgets.changeListing hf c.args).bind fun _ => .pure _
  | create c =>
    exact (typeName_forgets h note depth c.type).bind fun _ =>
      (Forgets.changeListing hf c.args).bind fun _ => .pure _
  | binary b => exact (hf b.left).bind fun _ => (hf b.right).bind fun _ => .pure _
  | parens p => exact (hf p.inner).map _

theorem askExpr_forgets (e : Expr) : Forgets (askExpr (h.observed note) e) (askExpr h e) := by
  cases e with
  | name i => exact .ask note _ _
  | access a => exact .ask note _ _
  | call c => exact .ask note _ _
  | _ => exact .pure _

theorem expr_forgets (e : Expr) :
    Forgets (expr (h.observed note) depth e) (expr h depth e) := by
  refine Forgets.approx (fun f g hf e => ?_) depth e
  exact Forgets.changeNode (askExpr_forgets h note e) (belowExpr_forgets h note depth hf)

theorem initializer_forgets (i : Initializer) :
    Forgets (initializer (h.observed note) depth i) (initializer h depth i) :=
  (expr_forgets h note depth i.value).map _

theorem varDecl_forgets (v : Variable) :
    Forgets (varDecl (h.observed note) depth v) (varDecl h depth v) :=
  (typeName_forgets h note depth v.type).bind fun _ =>
    (Forgets.changeOption (initializer_forgets h note depth) v.value).bind fun _ => .pure _

theorem stmtOf_forgets {f : Block → Pass (σ × ω) (Option Block)} {g : Block → Pass σ (Option Block)}
    (hf : ∀ b, Forgets (f b) (g b)) (x : Stmt) :
    Forgets (stmtOf (h.observed note) depth f x) (stmtOf h depth g x) := by
  cases x with
  | expr x => exact (expr_forgets h note depth x.expr).map _
  | localVar v => exact (varDecl_forgets h note depth v).map _
  | ret x => exact (Forgets.changeOption (expr_forgets h note depth) x.value).map _
  | block b => exact (hf b).map _

theorem block_forgets (b : Block) :
    Forgets (block (h.observed note) depth b) (block h depth b) := by
  refine Forgets.approx (fun f g hf b => ?_) depth b
  exact (Forgets.changeEach (stmtOf_forgets h note depth hf) b.statements).map _

theorem methodBody_forgets (b : MethodBody) :
    Forgets (methodBody (h.observed note) depth b) (methodBody h depth b) := by
  cases b with
  | block b => exact (block_forgets h note depth b).map _
  | absent semi => exact .pure _

theorem param_forgets (p : Param) :
    Forgets (param (h.observed note) depth p) (param h depth p) :=
  (typeName_forgets h note depth p.type).map _

theorem method_forgets (m : Method) :
    Forgets (method (h.observed note) depth m) (method h depth m) :=
  (Forgets.changeOption (typeName_forgets h note depth) m.returnType).bind fun _ =>
    (Forgets.changeListing (param_forgets h note depth) m.params).bind fun _ =>
      (methodBody_forgets h note depth m.body).bind fun _ => .pure _

theorem memberOf_forgets {f : TypeDecl → Pass (σ × ω) (Option TypeDecl)}
    {g : TypeDecl → Pass σ (Option TypeDecl)} (hf : ∀ d, Forgets (f d) (g d)) (x : Member) :
    Forgets (memberOf (h.observed note) depth f x) (memberOf h depth g x) := by
  cases x with
  | field v => exact (varDecl_forgets h note depth v).map _
  | method m => exact (method_forgets h note depth m).map _
  | type d => exact (hf d).map _

theorem belowTypeDecl_forgets {f : TypeDecl → Pass (σ × ω) (Option TypeDecl)}
    {g : TypeDecl → Pass σ (Option TypeDecl)} (hf : ∀ d, Forgets (f d) (g d)) (d : TypeDecl) :
    Forgets (belowTypeDecl (h.observed note) depth f d) (belowTypeDecl h depth g d) := by
  have harguments := typeArgumentsOf_forgets (typeName_forgets h note depth)
  have hclause := typeClause_forgets h note depth
  have hbody : Forgets (typeBodyOf (h.observed note) depth f d.body)
      (typeBodyOf h depth g d.body) :=
    (Forgets.changeEach (memberOf_forgets h note depth hf) d.body.members).map _
  exact (Forgets.changeOption harguments d.typeParams).bind fun _ =>
    (Forgets.changeOption hclause d.extending).bind fun _ =>
      (Forgets.changeOption hclause d.implementing).bind fun _ => hbody.bind fun _ => .pure _

theorem typeDecl_forgets (d : TypeDecl) :
    Forgets (typeDecl (h.observed note) depth d) (typeDecl h depth d) := by
  refine Forgets.approx (fun f g hf d => ?_) depth d
  exact Forgets.changeNode (.ask note _ _) (belowTypeDecl_forgets h note depth hf)

/-- **A watched pass is the pass itself**, with an account beside its state. -/
theorem transform_forgets (m : Module) :
    Forgets (m.transform (h.observed note) depth) (m.transform h depth) :=
  (Forgets.changeEach (typeDecl_forgets h note depth) m.types).map _

end Nodes

end Pass

end Migration
