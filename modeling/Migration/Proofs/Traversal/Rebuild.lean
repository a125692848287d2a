import Migration.Proofs.Traversal.Counting
import Migration.Proofs.Traversal.Observed

/-!
# Sharing what is kept, and rebuilding everything

A pass gives nothing for a part that it keeps, so that the old part can be shared. The plain traversal
knows no such thing: at every node it asks the hook, takes the replacement if there is one, and builds
the node anew from the parts below it, changed in turn. All else is copied from the node at hand. Both
go to the same depth.

Main result: a pass asks its hooks the same questions in the same order as the plain traversal, and
gives the tree of the plain traversal if a hook replaced a node, else nothing (`transform_eq_rebuild`).
-/

namespace Migration

namespace Rebuild

open Pass (ask askExpr)

variable {σ α : Type}

/-! ### The plain traversal -/

def items (f : α → Pass σ α) (xs : List (Padded α)) : Pass σ (List (Padded α)) :=
  xs.mapM fun x => do return { x with elem := ← f x.elem }

def listing (f : α → Pass σ α) (l : Listing α) : Pass σ (Listing α) := do
  return { l with items := ← items f l.items }

/-- The `n`-th approximation of a traversal described in terms of itself: it does not go deeper. -/
def approx (F : (α → Pass σ α) → α → Pass σ α) : Nat → α → Pass σ α
  | 0, _ => fun _ => none
  | n + 1, a => F (approx F n) a

section

variable (h : Hooks σ) (depth : Nat)

def typeArgumentsOf (type : TypeName → Pass σ TypeName) (a : TypeArguments) :
    Pass σ TypeArguments := do
  return { a with list := ← listing type a.list }

def belowTypeName (self : TypeName → Pass σ TypeName) (t : TypeName) : Pass σ TypeName := do
  return t.withArgs (← t.args.mapM (typeArgumentsOf self))

def typeNameOf (self : TypeName → Pass σ TypeName) (t : TypeName) : Pass σ TypeName := do
  belowTypeName self ((← ask (h.typeName t)).getD t)

def typeName : TypeName → Pass σ TypeName := approx (typeNameOf h) depth

def typeClause (c : TypeClause) : Pass σ TypeClause := do
  return { c with types := ← items (typeName h depth) c.types }

def belowExpr (self : Expr → Pass σ Expr) : Expr → Pass σ Expr
  | .name i => pure (.name i)
  | .literal l => pure (.literal l)
  | .access a => do return .access { a with target := ← self a.target }
  | .call c => do
    return .call { c with target := ← c.target.mapM self, args := ← listing self c.args }
  | .create c => do
    return .create { c with type := ← typeName h depth c.type, args := ← listing self c.args }
  | .binary b => do return .binary { b with left := ← self b.left, right := ← self b.right }
  | .parens p => do return .parens { p with inner := ← self p.inner }

def exprOf (self : Expr → Pass σ Expr) (e : Expr) : Pass σ Expr := do
  belowExpr h depth self ((← askExpr h e).getD e)

def expr : Expr → Pass σ Expr := approx (exprOf h depth) depth

def initializer (i : Initializer) : Pass σ Initializer := do
  return { i with value := ← expr h depth i.value }

def varDecl (v : Variable) : Pass σ Variable := do
  return { v with
    type := ← typeName h depth v.type
    value := ← v.value.mapM (initializer h depth) }

def stmtOf (self : Block → Pass σ Block) : Stmt → Pass σ Stmt
  | .expr x => do return .expr { x with expr := ← expr h depth x.expr }
  | .localVar v => do return .localVar (← varDecl h depth v)
  | .ret x => do return .ret { x with value := ← x.value.mapM (expr h depth) }
  | .block b => do return .block (← self b)

def blockOf (self : Block → Pass σ Block) (b : Block) : Pass σ Block := do
  return { b with statements := ← b.statements.mapM (stmtOf h depth self) }

def block : Block → Pass σ Block := approx (blockOf h depth) depth

def param (p : Param) : Pass σ Param := do
  return { p with type := ← typeName h depth p.type }

def methodBody : MethodBody → Pass σ MethodBody
  | .block b => do return .block (← block h depth b)
  | .absent semi => pure (.absent semi)

def method (m : Method) : Pass σ Method := do
  return { m with
    returnType := ← m.returnType.mapM (typeName h depth)
    params := ← listing (param h depth) m.params
    body := ← methodBody h depth m.body }

def memberOf (self : TypeDecl → Pass σ TypeDecl) : Member → Pass σ Member
  | .field v => do return .field (← varDecl h depth v)
  | .method m => do return .method (← method h depth m)
  | .type d => do return .type (← self d)

def typeBodyOf (self : TypeDecl → Pass σ TypeDecl) (b : TypeBody) : Pass σ TypeBody := do
  return { b with members := ← b.members.mapM (memberOf h depth self) }

def belowTypeDecl (self : TypeDecl → Pass σ TypeDecl) (d : TypeDecl) : Pass σ TypeDecl := do
  return { d with
    typeParams := ← d.typeParams.mapM (typeArgumentsOf (typeName h depth))
    extending := ← d.extending.mapM (typeClause h depth)
    implementing := ← d.implementing.mapM (typeClause h depth)
    body := ← typeBodyOf h depth self d.body }

def typeDeclOf (self : TypeDecl → Pass σ TypeDecl) (d : TypeDecl) : Pass σ TypeDecl := do
  belowTypeDecl h depth self ((← ask (h.typeDecl d)).getD d)

def typeDecl : TypeDecl → Pass σ TypeDecl := approx (typeDeclOf h depth) depth

end

end Rebuild

/-- The module with all its types rebuilt; no result when the traversal goes deeper than `depth`. -/
def Module.rebuild {σ : Type} (m : Module) (h : Hooks σ) (depth : Nat) : Pass σ Module := do
  return { m with types := ← m.types.mapM (Rebuild.typeDecl h depth) }

namespace Pass

variable {σ α β : Type}

/-! ### A pass that may keep a part, and one that always gives one -/

/-- The pass `q` gives what `p` gives, and `x` itself where `p` keeps it. -/
def Agrees (x : α) (p : Pass σ (Option α)) (q : Pass σ α) : Prop :=
  ∀ s, q s = (p s).map fun r => (r.1.getD x, r.2)

namespace Agrees

variable {x : α} {z : β}

theorem pure {r : Option α} {y : α} (h : r.getD x = y) :
    Agrees x (pure r : Pass σ (Option α)) (pure y) := by
  intro s
  rw [← h]
  rfl

theorem bind {p : Pass σ (Option α)} {q : Pass σ α} {k : Option α → Pass σ (Option β)}
    {l : α → Pass σ β} (hp : Agrees x p q) (hk : ∀ r, Agrees z (k r) (l (r.getD x))) :
    Agrees z (p >>= k) (q >>= l) := by
  intro s
  change (q s).bind (fun r => l r.1 r.2) = ((p s).bind fun r => k r.1 r.2).map _
  rw [hp s]
  cases p s with
  | none => rfl
  | some r => exact hk r.1 r.2

/-- The same question first, and then passes that agree for every answer. -/
theorem after {hook : Pass σ (Option α)} {k : Option α → Pass σ (Option β)}
    {l : Option α → Pass σ β} (hk : ∀ r, Agrees z (k r) (l r)) :
    Agrees z (hook >>= k) (hook >>= l) := by
  intro s
  change ((hook s).bind fun r => l r.1 r.2) = ((hook s).bind fun r => k r.1 r.2).map _
  cases hook s with
  | none => rfl
  | some r => exact hk r.1 r.2

/-- A node in which one part is changed. -/
theorem part {p : Pass σ (Option α)} {q : Pass σ α} (hp : Agrees x p q) (g : α → β)
    (hg : g x = z) : Agrees z (do return (← p).map g) (do return g (← q)) := by
  refine hp.bind fun r => .pure ?_
  cases r with
  | none => exact hg.symm
  | some y => rfl

variable {f : α → Pass σ (Option α)} {g : α → Pass σ α}

theorem changeEach (hf : ∀ x, Agrees x (f x) (g x)) (xs : List α) :
    Agrees xs (changeEach f xs) (xs.mapM g) := by
  induction xs with
  | nil => exact .pure rfl
  | cons x xs ih =>
    rw [List.mapM_cons]
    refine (hf x).bind fun y => ih.bind fun ys => .pure (getD_unless ?_)
    intro hnone
    simp only [Bool.and_eq_true, Option.isNone_iff_eq_none] at hnone
    rw [hnone.1, hnone.2]
    rfl

theorem changeItems (hf : ∀ x, Agrees x (f x) (g x)) (xs : List (Padded α)) :
    Agrees xs (changeItems f xs) (Rebuild.items g xs) := by
  refine Agrees.changeEach (fun x => ?_) xs
  exact (hf x.elem).part _ rfl

theorem changeListing (hf : ∀ x, Agrees x (f x) (g x)) (l : Listing α) :
    Agrees l (changeListing f l) (Rebuild.listing g l) := (Agrees.changeItems hf l.items).part _ rfl

theorem changeOption (hf : ∀ x, Agrees x (f x) (g x)) (o : Option α) :
    Agrees o (changeOption f o) (o.mapM g) := by
  cases o with
  | none => exact .pure rfl
  | some x => exact (hf x).part some rfl

/-- The replacement is not asked about again: below it, as below the node, the passes agree. -/
theorem changeNode {hook : Pass σ (Option α)} {node : α} (hf : ∀ x, Agrees x (f x) (g x)) :
    Agrees node (do changeNode node (← hook) f) (do g ((← hook).getD node)) := by
  refine Agrees.after fun replaced s => ?_
  rw [hf (replaced.getD node) s]
  change _ = ((f (replaced.getD node) s).bind fun r => some (r.1.or replaced, r.2)).map _
  cases f (replaced.getD node) s with
  | none => rfl
  | some r =>
    obtain ⟨below, s'⟩ := r
    cases below <;> cases replaced <;> rfl

theorem approx {F : (α → Pass σ (Option α)) → α → Pass σ (Option α)}
    {G : (α → Pass σ α) → α → Pass σ α}
    (hF : ∀ f g, (∀ x, Agrees x (f x) (g x)) → ∀ x, Agrees x (F f x) (G g x)) (n : Nat) (x : α) :
    Agrees x (approx F n x) (Rebuild.approx G n x) := by
  induction n generalizing x with
  | zero => exact fun _ => rfl
  | succ n ih => exact hF _ _ ih x

end Agrees

/-! ### The nodes -/

section Nodes

variable (h : Hooks σ) (depth : Nat)

theorem typeArgumentsOf_agrees {f : TypeName → Pass σ (Option TypeName)}
    {g : TypeName → Pass σ TypeName} (hf : ∀ t, Agrees t (f t) (g t)) (a : TypeArguments) :
    Agrees a (typeArgumentsOf f a) (Rebuild.typeArgumentsOf g a) :=
  (Agrees.changeListing hf a.list).part _ (by cases a; rfl)

theorem typeName_agrees (t : TypeName) :
    Agrees t (typeName h depth t) (Rebuild.typeName h depth t) := by
  refine Agrees.approx (fun f g hf t => ?_) depth t
  refine Agrees.changeNode (g := Rebuild.belowTypeName g) fun t => ?_
  exact (Agrees.changeOption (typeArgumentsOf_agrees hf) t.args).part _ (by cases t; rfl)

theorem typeClause_agrees (c : TypeClause) :
    Agrees c (typeClause h depth c) (Rebuild.typeClause h depth c) :=
  (Agrees.changeItems (typeName_agrees h depth) c.types).part _ rfl

theorem belowExpr_agrees {f : Expr → Pass σ (Option Expr)} {g : Expr → Pass σ Expr}
    (hf : ∀ e, Agrees e (f e) (g e)) (e : Expr) :
    Agrees e (belowExpr h depth f e) (Rebuild.belowExpr h depth g e) := by
  cases e with
  | name i => exact .pure rfl
  | literal l => exact .pure rfl
  | access a => exact (hf a.target).part _ (by cases a; rfl)
  | call c =>
    refine (Agrees.changeOption hf c.target).bind fun target =>
      (Agrees.changeListing hf c.args).bind fun args => .pure (getD_unless ?_)
    cases c
    cases target <;> cases args <;> simp
  | create c =>
    refine (typeName_agrees h depth c.type).bind fun type =>
      (Agrees.changeListing hf c.args).bind fun args => .pure (getD_unless ?_)
    cases c
    cases type <;> cases args <;> simp
  | binary b =>
    refine (hf b.left).bind fun left => (hf b.right).bind fun right => .pure (getD_unless ?_)
    cases b
    cases left <;> cases right <;> simp
  | parens p => exact (hf p.inner).part _ (by cases p; rfl)

theorem expr_agrees (e : Expr) : Agrees e (expr h depth e) (Rebuild.expr h depth e) := by
  refine Agrees.approx (fun f g hf e => ?_) depth e
  exact Agrees.changeNode (belowExpr_agrees h depth hf)

theorem initializer_agrees (i : Initializer) :
    Agrees i (initializer h depth i) (Rebuild.initializer h depth i) :=
  (expr_agrees h depth i.value).part _ rfl

theorem varDecl_agrees (v : Variable) :
    Agrees v (varDecl h depth v) (Rebuild.varDecl h depth v) := by
  refine (typeName_agrees h depth v.type).bind fun type =>
    (Agrees.changeOption (initializer_agrees h depth) v.value).bind fun value =>
      .pure (getD_unless ?_)
  cases type <;> cases value <;> simp

theorem stmtOf_agrees {f : Block → Pass σ (Option Block)} {g : Block → Pass σ Block}
    (hf : ∀ b, Agrees b (f b) (g b)) (x : Stmt) :
    Agrees x (stmtOf h depth f x) (Rebuild.stmtOf h depth g x) := by
  cases x with
  | expr x => exact (expr_agrees h depth x.expr).part _ rfl
  | localVar v => exact (varDecl_agrees h depth v).part _ rfl
  | ret x => exact (Agrees.changeOption (expr_agrees h depth) x.value).part _ rfl
  | block b => exact (hf b).part _ rfl

theorem block_agrees (b : Block) : Agrees b (block h depth b) (Rebuild.block h depth b) := by
  refine Agrees.approx (fun f g hf b => ?_) depth b
  exact (Agrees.changeEach (stmtOf_agrees h depth hf) b.statements).part _ (by cases b; rfl)

theorem methodBody_agrees (b : MethodBody) :
    Agrees b (methodBody h depth b) (Rebuild.methodBody h depth b) := by
  cases b with
  | block b => exact (block_agrees h depth b).part _ rfl
  | absent semi => exact .pure rfl

theorem param_agrees (p : Param) : Agrees p (param h depth p) (Rebuild.param h depth p) :=
  (typeName_agrees h depth p.type).part _ rfl

theorem method_agrees (m : Method) :
    Agrees m (method h depth m) (Rebuild.method h depth m) := by
  refine (Agrees.changeOption (typeName_agrees h depth) m.returnType).bind fun returnType =>
    (Agrees.changeListing (param_agrees h depth) m.params).bind fun params =>
    (methodBody_agrees h depth m.body).bind fun body => .pure (getD_unless ?_)
  cases returnType <;> cases params <;> cases body <;> simp

theorem memberOf_agrees {f : TypeDecl → Pass σ (Option TypeDecl)} {g : TypeDecl → Pass σ TypeDecl}
    (hf : ∀ d, Agrees d (f d) (g d)) (x : Member) :
    Agrees x (memberOf h depth f x) (Rebuild.memberOf h depth g x) := by
  cases x with
  | field v => exact (varDecl_agrees h depth v).part _ rfl
  | method m => exact (method_agrees h depth m).part _ rfl
  | type d => exact (hf d).part _ rfl

theorem belowTypeDecl_agrees {f : TypeDecl → Pass σ (Option TypeDecl)}
    {g : TypeDecl → Pass σ TypeDecl} (hf : ∀ d, Agrees d (f d) (g d)) (d : TypeDecl) :
    Agrees d (belowTypeDecl h depth f d) (Rebuild.belowTypeDecl h depth g d) := by
  have harguments := typeArgumentsOf_agrees (typeName_agrees h depth)
  have hclause := typeClause_agrees h depth
  have hbody : Agrees d.body (typeBodyOf h depth f d.body) (Rebuild.typeBodyOf h depth g d.body) :=
    (Agrees.changeEach (memberOf_agrees h depth hf) d.body.members).part _ (by cases d.body; rfl)
  refine (Agrees.changeOption harguments d.typeParams).bind fun typeParams =>
    (Agrees.changeOption hclause d.extending).bind fun extending =>
    (Agrees.changeOption hclause d.implementing).bind fun implementing =>
    hbody.bind fun body => .pure (getD_unless ?_)
  cases d
  cases typeParams <;> cases extending <;> cases implementing <;> cases body <;> simp

theorem typeDecl_agrees (d : TypeDecl) :
    Agrees d (typeDecl h depth d) (Rebuild.typeDecl h depth d) := by
  refine Agrees.approx (fun f g hf d => ?_) depth d
  exact Agrees.changeNode (belowTypeDecl_agrees h depth hf)

/-- The plain traversal gives the changed module, and the module itself where the pass gives none. -/
theorem transform_agrees (m : Module) :
    Agrees m (m.transform h depth) (m.rebuild h depth) :=
  (Agrees.changeEach (typeDecl_agrees h depth) m.types).part _ rfl

/-- The account of a plain traversal has no influence on it either. -/
theorem rebuild_forgets {ω : Type} (note : ω → HookCall → ω) (m : Module) :
    Forgets (m.rebuild (h.observed note) depth) (m.rebuild h depth) := by
  intro s w
  rw [transform_agrees h depth m s, transform_agrees _ depth m (s, w),
    ← transform_forgets h note depth m s w, Option.map_map, Option.map_map]
  rfl

end Nodes

/-! ### The number of replacements -/

/-- How many of the calls replaced a node. -/
def replacements (calls : List HookCall) : Nat := (calls.filter HookCall.replaces).length

theorem replacements_append (calls : List HookCall) (c : HookCall) :
    replacements (calls ++ [c]) = replacements calls + if c.replaces then 1 else 0 := by
  rw [replacements, replacements, List.filter_append, List.length_append]
  cases hc : c.replaces <;> simp [hc]

theorem replacements_pos {calls : List HookCall} :
    0 < replacements calls ↔ calls.any HookCall.replaces = true := by
  rw [replacements, List.length_pos_iff_exists_mem, List.any_eq_true]
  simp only [List.mem_filter]

theorem tells_observe {hook : σ → Option α × σ} {call : Option α → HookCall}
    (hcall : ∀ answer, (call answer).replaces = answer.isSome) :
    Tells (fun s : σ × List HookCall => replacements s.2) false
      (ask (Hooks.observe (fun calls c => calls ++ [c]) call hook)) := by
  rintro ⟨s, calls⟩ r s' hrun
  obtain ⟨rfl, rfl⟩ := Prod.mk.inj (Option.some.inj hrun)
  simp only [replacements_append, hcall]
  cases (hook s).1 <;> simp

/-- A list of all calls tells how many of them replaced a node. -/
theorem counting_logged (h : Hooks σ) :
    Counting (fun s : σ × List HookCall => replacements s.2) h.logged where
  typeDecl _ := tells_observe fun _ => rfl
  typeName _ := tells_observe fun _ => rfl
  expr e := by
    cases e with
    | name i => exact tells_observe fun _ => rfl
    | access a => exact tells_observe fun _ => rfl
    | call c => exact tells_observe fun _ => rfl
    | _ => exact .pure rfl

/-- The module that a pass gives, in terms of the calls and of the module rebuilt. -/
theorem transform_of_calls {h : Hooks σ} {m : Module} {depth : Nat} {s s' : σ} {r : Option Module}
    {calls : List HookCall} (hrun : m.transform h.logged depth (s, []) = some (r, s', calls)) :
    r = if calls.any HookCall.replaces then some (r.getD m) else none := by
  have htells := ((counting_logged h).transform_tells depth m (s, []) r (s', calls) hrun).2
  rw [show replacements [] = 0 from rfl, replacements_pos] at htells
  cases r with
  | none =>
    rw [if_neg]
    intro hany
    exact absurd (htells.mpr (.inr hany)) (by decide)
  | some m' =>
    rw [if_pos]
    · rfl
    · exact (htells.mp rfl).resolve_left (by decide)

/-- **A pass is the plain traversal that shares what is kept.** It asks its hooks the same questions in
the same order, with the same answers, and ends in the same state. It gives nothing exactly when no call
replaced a node, and the module of the plain traversal otherwise. The list of calls that says so has no
influence on either traversal, and neither has a result at all where the other has none. -/
theorem transform_eq_rebuild (h : Hooks σ) (m : Module) (depth : Nat) (s : σ) :
    m.transform h.logged depth (s, [])
        = (m.rebuild h.logged depth (s, [])).map (fun (m', s', calls) =>
          (if calls.any HookCall.replaces then some m' else none, s', calls))
      ∧ m.transform h depth s
        = (m.transform h.logged depth (s, [])).map (fun (r, s', _) => (r, s'))
      ∧ m.rebuild h depth s
        = (m.rebuild h.logged depth (s, [])).map (fun (m', s', _) => (m', s')) := by
  refine ⟨?_, (transform_forgets h _ depth m s []).symm, (rebuild_forgets h depth _ m s []).symm⟩
  rw [transform_agrees h.logged depth m (s, [])]
  cases hrun : m.transform h.logged depth (s, []) with
  | none => rfl
  | some out =>
    obtain ⟨r, s', calls⟩ := out
    exact congrArg some (congrArg (·, s', calls) (transform_of_calls hrun))

end Pass

end Migration
