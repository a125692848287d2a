import Migration.Proofs.Grammar.Lookalikes
import Migration.Proofs.Traversal.Accesses
import Migration.Proofs.Traversal.Transform
import Migration.Proofs.Tree.Rewording

/-!
# Changes that leave a text readable

A pass that exchanges chains of names, with whatever trivia around their dots, may turn an expression
into one that looks like a variable, which is then read as one. The tree that is left can not be read
again itself, but its text can: the changes of blocks and of type declarations (`rewordsBlock`,
`rewordsDecl`) lead to rows of tokens with which a tree that can be read is written as well. The one
exception are statements that look like a variable with a modifier (`Outline.Unmodified`).
-/

namespace Migration

open Change (Each Opt Item Bracketed Below)
open Scan (isClosed)
open Token (word symbol)

variable {σ : Type} {s s' : σ}

/-! ### Statements that are taken for variables -/

/-- The block at a node. -/
def Node.block? : Node → Option Block
  | .block b => some b
  | _ => none

/-- An expression that is a statement starts with no modifier where it looks like a variable. -/
def Stmt.Unmodified : Stmt → Prop
  | .expr s => LooksVariable (s.expr.tokens ++ [symbol s.semi ";"]) → startsModifier s.expr.tokens = false
  | _ => True

/-- The statement is no expression that starts with a modifier. -/
def Stmt.startsBare : Stmt → Bool
  | .expr s => !startsModifier s.expr.tokens
  | _ => true

theorem Stmt.unmodified_of_startsBare {s : Stmt} (h : s.startsBare = true) : s.Unmodified := by
  cases s with
  | expr s => exact fun _ => by simpa [startsBare] using h
  | _ => trivial

namespace Outline

/-- No expression that is a statement at a node of the outlines looks like a variable with a modifier
in front of it. -/
def Unmodified (os : List Outline) : Prop :=
  ∀ b ∈ collect Node.block? os, ∀ s ∈ b.statements, s.Unmodified

theorem unmodified_append {os ps : List Outline} :
    Unmodified (os ++ ps) ↔ Unmodified os ∧ Unmodified ps := by
  rw [Unmodified, collect_append, List.forall_mem_append, Unmodified, Unmodified]

theorem unmodified_cons {o : Outline} {os : List Outline} :
    Unmodified (o :: os) ↔ Unmodified [o] ∧ Unmodified os := by
  rw [← unmodified_append]
  rfl

theorem Unmodified.below {n : Node} {below : List Outline} (h : Unmodified [.node n below]) :
    Unmodified below := by
  rw [Unmodified, collect_node, List.forall_mem_append] at h
  exact h.2

theorem unmodified_block {b : Block} : Unmodified [b.outline] ↔
    (∀ s ∈ b.statements, s.Unmodified) ∧ Unmodified (Stmt.outlineAll b.statements) := by
  rw [Unmodified, collect_block, Node.block?, Option.toList_some, List.singleton_append,
    List.forall_mem_cons, Unmodified]

theorem Unmodified.body {m : Method} (h : Unmodified [m.outline]) : Unmodified m.body.outlines :=
  (unmodified_append.mp h.below).2

theorem Unmodified.members {d : TypeDecl} (h : Unmodified [d.outline]) :
    Unmodified (Member.outlineAll d.body.members) := by
  obtain ⟨_, _, _, _, _, _, _, _, _, ⟨_, _, _, _⟩⟩ := d
  exact (unmodified_append.mp h.below).2

theorem Unmodified.types {m : Module} (h : Unmodified [m.outline]) :
    Unmodified (m.types.map TypeDecl.outline) := (unmodified_append.mp h.below).2

end Outline

/-! ### Expressions -/

/-- What an expression may be exchanged for. -/
structure Expr.Exchanged (dotted : Bool) (x y : Expr) : Prop where
  wellFormed : y.WellFormed dotted
  level : y.level = x.level
  tokens : ∃ e, Reworded true x.tokens y.tokens e
  chain : x.dottedName?.isSome = true → y.dottedName?.isSome = true ∧ y.lead = x.lead
    ∧ (ClosedInside x.tokens → ClosedInside y.tokens)

theorem Expr.Exchanged.refl {dotted : Bool} {x : Expr} (h : x.WellFormed dotted) :
    x.Exchanged dotted x :=
  ⟨h, rfl, Reworded.refl _ _, fun hname => ⟨hname, rfl, fun h => h⟩⟩

/-- An expression that spells a dotted name is written as a chain. -/
theorem Expr.chainTokens : (e : Expr) → {dotted : Bool} → e.dottedName?.isSome = true →
    e.WellFormed dotted → ChainTokens e.lead e.tokens
  | .name _, _, _, h => .name h
  | .access ⟨_, target, _, _, _⟩, _, hname, ⟨htarget, _, hmember, _⟩ =>
    .member (target.chainTokens (by simpa [Expr.dottedName?] using hname) htarget)
      (isWordText_of_isSegmentText hmember)
  | .call _, _, hname, _ => by cases hname
  | .create _, _, hname, _ => by cases hname
  | .literal _, _, hname, _ => by cases hname
  | .binary _, _, hname, _ => by cases hname
  | .parens _, _, hname, _ => by cases hname
termination_by structural e => e

/-- The change of expressions that leaves them readable. -/
def rewordsExpr : Change σ Expr :=
  fun _ x _ y => ∀ dotted, x.WellFormed dotted → x.Exchanged dotted y

theorem rewords_items {xs ys : List (Padded Expr)} (h : Each (Item rewordsExpr) s xs s' ys)
    (hwf : ItemsOk (Expr.WellFormed false) xs) : ItemsOk (Expr.WellFormed false) ys
      ∧ ∃ e, Reworded true (itemTokens Expr.tokens xs) (itemTokens Expr.tokens ys) e := by
  induction h with
  | nil => exact ⟨trivial, true, .nil⟩
  | @cons s s₁ s₂ x y xs ys hx hrest ih =>
    obtain ⟨hx⟩ := hx
    cases hrest with
    | nil =>
      obtain ⟨hy, _, htokens, _⟩ := hx false hwf.1
      exact ⟨⟨hy, hwf.2⟩, htokens⟩
    | cons _ _ =>
      obtain ⟨hy, _, ⟨_, htokens⟩, _⟩ := hx false hwf.1
      obtain ⟨hwfs, e, hmore⟩ := ih hwf.2
      exact ⟨⟨hy, hwfs⟩, e, htokens.around hmore⟩

theorem rewords_listing {x y : Listing Expr} (h : Bracketed rewordsExpr s x s' y)
    (hwf : Expr.WellFormedAll x.items) : Expr.WellFormedAll y.items
      ∧ ∀ b, Reworded b (x.tokens "(" ")" Expr.tokens) (y.tokens "(" ")" Expr.tokens) true := by
  obtain ⟨hitems⟩ := h
  rw [Expr.wellFormedAll_iff] at hwf ⊢
  obtain ⟨hwfy, _, htokens⟩ := rewords_items hitems hwf
  exact ⟨hwfy, fun b => .same (htokens.around .nil)⟩

/-- What is directly below an expression may be exchanged. -/
theorem reworded_below {x y : Expr} (h : Below rewordsExpr s x s' y) {dotted : Bool}
    (hx : x.WellFormed dotted) : x.Exchanged dotted y := by
  cases h with
  | name => exact .refl hx
  | literal => exact .refl hx
  | @access _ _ a target htarget =>
    obtain ⟨id, old, dot, member, owner⟩ := a
    obtain ⟨hwf, hlevel, hname, howner⟩ := hx
    obtain ⟨hnew, hnewLevel, ⟨_, htokens⟩, hchain⟩ := htarget true hwf
    refine ⟨⟨hnew, hnewLevel.trans hlevel, hname, howner⟩, rfl, ⟨_, htokens.around (.same .nil)⟩,
      fun h => ?_⟩
    obtain ⟨hspelled, hlead, hclosed⟩ := hchain (by simpa [Expr.dottedName?] using h)
    refine ⟨by simpa [Expr.dottedName?] using hspelled, hlead, fun h => ?_⟩
    obtain ⟨hold, hmember⟩ := (closedInside_append old.tokens_ne_nil).mp h
    exact (closedInside_append target.tokens_ne_nil).mpr ⟨hclosed hold, hmember⟩
  | @call _ _ _ c target args htarget hargs =>
    obtain ⟨id, old, dot, name, list⟩ := c
    cases htarget with
    | none =>
      obtain ⟨hdot, hname, hitems⟩ := hx
      obtain ⟨hwf, htokens⟩ := rewords_listing hargs hitems
      refine ⟨⟨hdot, hname, hwf⟩, rfl, ⟨true, ?_⟩, fun h => by cases h⟩
      rw [Expr.tokens_call, Expr.tokens_call]
      exact .same (htokens _)
    | some htarget =>
      obtain ⟨hwft, hlevel, hname, hitems⟩ := hx
      obtain ⟨hwf, htokens⟩ := rewords_listing hargs hitems
      obtain ⟨hnew, hnewLevel, ⟨_, hrow⟩, _⟩ := htarget true hwft
      refine ⟨⟨hnew, hnewLevel.trans hlevel, hname, hwf⟩, rfl, ⟨true, ?_⟩, fun h => by cases h⟩
      rw [Expr.tokens_memberCall, Expr.tokens_memberCall]
      exact hrow.around (.same (htokens _))
  | @create _ _ c args hargs =>
    obtain ⟨id, lead, type, list⟩ := c
    obtain ⟨htype, hitems⟩ := hx
    obtain ⟨hwf, htokens⟩ := rewords_listing hargs hitems
    refine ⟨⟨htype, hwf⟩, rfl, ⟨true, ?_⟩, fun h => by cases h⟩
    rw [Expr.tokens_create, Expr.tokens_create]
    obtain ⟨_, hrefl⟩ := Reworded.refl true type.tokens
    exact .same (hrefl.append (htokens _))
  | @binary _ _ _ b left right hleft hright =>
    obtain ⟨id, old, opLead, op, old'⟩ := b
    obtain ⟨hwfl, hwfr, hop, hone, hle, hlt⟩ := hx
    obtain ⟨hl, hlevel, ⟨_, hrow⟩, _⟩ := hleft false hwfl
    obtain ⟨hr, hlevel', ⟨e, hrow'⟩, _⟩ := hright false hwfr
    rw [← hlevel] at hone hle
    rw [← hlevel'] at hlt
    exact ⟨⟨hl, hr, hop, hone, hle, hlt⟩, rfl, ⟨e, hrow.around hrow'⟩, fun h => by cases h⟩
  | @parens _ _ p inner hinner =>
    obtain ⟨id, lead, old, close⟩ := p
    obtain ⟨hnew, _, ⟨_, hrow⟩, _⟩ := hinner false hx
    exact ⟨hnew, rfl, ⟨true, .same (hrow.around .nil)⟩, fun h => by cases h⟩

/-! ### Statements -/

theorem lexical_prependLead {lead : Trivia} {ts : List Token} :
    (∀ t ∈ prependLead lead ts, t.Lexical) ↔ ∀ t ∈ ts, t.Lexical := by
  cases ts with
  | nil => rfl
  | cons t ts =>
    rw [prependLead, List.forall_mem_cons, List.forall_mem_cons]
    rfl

/-- A variable with another value has the same tokens in front of it. -/
theorem rewords_var {v w : Variable} (h : Change.Var rewordsExpr s v s' w) (hwf : v.WellFormed) :
    w.WellFormed ∧ Reworded true v.tokens w.tokens true
      ∧ (LooksVariable v.bareTokens → LooksVariable w.bareTokens) := by
  obtain ⟨hvalue⟩ := h
  obtain ⟨id, lead, modifiers, type, name, value, semi⟩ := v
  cases hvalue with
  | none =>
    refine ⟨hwf, ?_, fun h => h⟩
    rw [Variable.tokens_eq, Variable.bareTokens_eq]
    exact Reworded.prependLead _ (.before _ .nil)
  | some hinit =>
    obtain ⟨hx⟩ := hinit
    rename_i x y signLead
    obtain ⟨hy, _, ⟨_, htokens⟩, _⟩ := hx false (hwf.value _ rfl)
    -- What the look-ahead looks at ends with the sign in front of the value.
    have hrow (z : Expr) : Variable.bareTokens
        ⟨id, lead, modifiers, type, name, some ⟨signLead, z⟩, semi⟩
        = (modifierTokens modifiers ++ (type.tokens ++ name.tokens))
          ++ symbol signLead "=" :: (z.tokens ++ [symbol semi ";"]) := by
      rw [Variable.bareTokens_eq]
      simp [Variable.bodyTokens, optionTokens, Initializer.tokens]
    refine ⟨⟨hwf.declares, ?_⟩, ?_, fun h => ?_⟩
    · rintro i ⟨⟩
      exact hy
    · rw [Variable.tokens_eq, Variable.tokens_eq, hrow, hrow]
      exact Reworded.prependLead _ (.before _ (htokens.around .nil))
    · rw [hrow, looksVariable_cut rfl rfl] at h ⊢
      exact h

/-- The change of blocks that leaves their text readable. -/
def rewordsBlock : Change σ Block :=
  fun _ b _ c => b.WellFormed → (∀ f, Reworded f b.tokens c.tokens true)
    ∧ ((∀ t ∈ c.tokens, t.Lexical) → Outline.Unmodified [c.outline] →
      ∃ d : Block, d.WellFormed ∧ d.tokens = c.tokens)

theorem rewords_stmt {x y : Stmt} (h : Change.Stmt rewordsExpr rewordsBlock s x s' y)
    (hwf : x.WellFormed) : Reworded true x.tokens y.tokens true
      ∧ ((∀ t ∈ y.tokens, t.Lexical) → y.Unmodified → Outline.Unmodified y.outlines →
        ∃ z : Stmt, z.WellFormed ∧ z.tokens = y.tokens) := by
  cases h with
  | @expr _ _ x expr hx =>
    obtain ⟨hbare, hexpr, _⟩ := hwf
    obtain ⟨hy, _, ⟨_, htokens⟩, _⟩ := hx false hexpr
    have hbare' := htokens.headBare hbare
    refine ⟨Reworded.prependLead _ (htokens.around .nil), fun hlexical hunmodified _ => ?_⟩
    by_cases hlooks : LooksVariable (expr.tokens ++ [symbol x.semi ";"])
    · have hl := (List.forall_mem_append.mp (lexical_prependLead.mp hlexical)).1
      obtain ⟨v, hv, hlead, htokens⟩ := expr.exists_variable hy hbare' hl (hunmodified hlooks) hlooks x.lead
      rw [← htokens] at hlooks
      refine ⟨.localVar v, ⟨hv, hlooks⟩, ?_⟩
      calc v.tokens = prependLead x.lead (expr.tokens ++ [symbol x.semi ";"]) := by
            rw [Variable.tokens_eq, hlead, htokens]
        _ = Stmt.tokens (.expr { x with expr }) := rfl
    · exact ⟨.expr { x with expr }, ⟨hbare', hy, hlooks⟩, rfl⟩
  | localVar hv =>
    obtain ⟨hw, htokens, hlooks⟩ := rewords_var hv hwf.1
    exact ⟨htokens, fun _ _ _ => ⟨.localVar _, ⟨hw, hlooks hwf.2⟩, rfl⟩⟩
  | @ret _ _ x value hx =>
    obtain ⟨id, lead, old, semi⟩ := x
    cases hx with
    | none => exact ⟨.same (.same .nil), fun _ _ _ => ⟨_, hwf, rfl⟩⟩
    | some hx =>
      obtain ⟨hy, _, ⟨_, htokens⟩, _⟩ := hx false (hwf _ rfl)
      refine ⟨.same (htokens.around .nil), fun _ _ _ => ⟨.ret ⟨id, lead, some _, semi⟩, ?_, rfl⟩⟩
      rintro e ⟨⟩
      exact hy
  | block hb =>
    obtain ⟨htokens, hread⟩ := hb hwf
    refine ⟨htokens true, fun hlexical _ hunmodified => ?_⟩
    obtain ⟨d, hd, hrow⟩ := hread hlexical hunmodified
    exact ⟨.block d, hd, hrow⟩

theorem rewords_statements {xs ys : List Stmt}
    (h : Each (Change.Stmt rewordsExpr rewordsBlock) s xs s' ys) (hwf : Stmt.WellFormedAll xs) :
    Reworded true (Stmt.tokensAll xs) (Stmt.tokensAll ys) true
      ∧ ((∀ t ∈ Stmt.tokensAll ys, t.Lexical) → (∀ y ∈ ys, y.Unmodified) →
        Outline.Unmodified (Stmt.outlineAll ys) →
        ∃ zs, Stmt.WellFormedAll zs ∧ Stmt.tokensAll zs = Stmt.tokensAll ys) := by
  induction h with
  | nil => exact ⟨.nil, fun _ _ _ => ⟨[], trivial, rfl⟩⟩
  | cons hx _ ih =>
    obtain ⟨htokens, hread⟩ := rewords_stmt hx hwf.1
    obtain ⟨hmore, hreads⟩ := ih hwf.2
    refine ⟨htokens.append hmore, fun hlexical hunmodified hbelow => ?_⟩
    rw [Stmt.tokensAll, List.forall_mem_append] at hlexical
    rw [List.forall_mem_cons] at hunmodified
    rw [Stmt.outlineAll, Outline.unmodified_append] at hbelow
    obtain ⟨z, hz, hrow⟩ := hread hlexical.1 hunmodified.1 hbelow.1
    obtain ⟨zs, hzs, hrows⟩ := hreads hlexical.2 hunmodified.2 hbelow.2
    exact ⟨z :: zs, ⟨hz, hzs⟩, by rw [Stmt.tokensAll, Stmt.tokensAll, hrow, hrows]⟩

/-- The text of a block whose statements are exchanged stays readable. -/
theorem rewords_block {b : Block} {statements : List Stmt}
    (h : Each (Change.Stmt rewordsExpr rewordsBlock) s b.statements s' statements) :
    rewordsBlock s b s' { b with statements } := by
  intro hwf
  obtain ⟨id, lead, old, close⟩ := b
  obtain ⟨htokens, hread⟩ := rewords_statements h hwf
  refine ⟨fun f => .same (htokens.around .nil), fun hlexical hunmodified => ?_⟩
  obtain ⟨hstatements, hbelow⟩ := Outline.unmodified_block.mp hunmodified
  have hl := (List.forall_mem_append.mp (List.forall_mem_cons.mp hlexical).2).1
  obtain ⟨zs, hzs, hrows⟩ := hread hl hstatements hbelow
  exact ⟨⟨id, lead, zs, close⟩, hzs, by rw [Block.tokens, Block.tokens, hrows]⟩

/-! ### Declarations -/

/-- The change of type declarations that leaves their text readable. -/
def rewordsDecl : Change σ TypeDecl :=
  fun _ d _ e => d.WellFormed → Reworded true d.tokens e.tokens true ∧ e.lead = d.lead
    ∧ ((∀ t ∈ e.tokens, t.Lexical) → Outline.Unmodified [e.outline] →
      ∃ z : TypeDecl, z.WellFormed ∧ z.lead = e.lead ∧ z.tokens = e.tokens)

theorem rewords_member {x y : Member}
    (h : Change.Member rewordsExpr rewordsBlock rewordsDecl s x s' y) (hwf : x.WellFormed) :
    Reworded true x.tokens y.tokens true
      ∧ ((∀ t ∈ y.tokens, t.Lexical) → Outline.Unmodified [y.outline] →
        ∃ z : Member, z.WellFormed ∧ z.tokens = y.tokens) := by
  cases h with
  | field hv =>
    obtain ⟨hw, htokens, _⟩ := rewords_var hv hwf
    exact ⟨htokens, fun _ _ => ⟨.field _, hw, rfl⟩⟩
  | @method _ _ m body hbody =>
    have hbefore (body : MethodBody) : Member.tokens (.method { m with body })
        = prependLead m.lead ((modifierTokens m.modifiers ++ (optionTokens TypeName.tokens m.returnType
          ++ (m.name.tokens ++ m.params.tokens "(" ")" Param.tokens))) ++ body.tokens) := by
      rw [Member.tokens, Method.tokens]
      simp only [List.append_assoc]
    have hself : Member.tokens (.method m) = Member.tokens (.method { m with body := m.body }) := rfl
    obtain ⟨_, hrefl⟩ := Reworded.refl true (modifierTokens m.modifiers
      ++ (optionTokens TypeName.tokens m.returnType
        ++ (m.name.tokens ++ m.params.tokens "(" ")" Param.tokens)))
    rw [hself, hbefore, hbefore]
    generalize hold : m.body = old at hbody
    cases hbody with
    | absent =>
      refine ⟨Reworded.prependLead _ (hrefl.append (.same .nil)), fun _ _ => ⟨.method m, hwf, ?_⟩⟩
      rw [hself, hbefore, hold]
    | @block _ _ b c hb =>
      have hwfb := hwf.body
      rw [hold] at hwfb
      obtain ⟨htokens, hread⟩ := hb hwfb
      refine ⟨Reworded.prependLead _ (hrefl.append (htokens _)), fun hlexical hunmodified => ?_⟩
      obtain ⟨d, hd, hrow⟩ := hread (List.forall_mem_append.mp (lexical_prependLead.mp hlexical)).2
        hunmodified.body
      refine ⟨.method { m with body := .block d }, ⟨hwf.declares, hwf.constructs, hwf.params, hd⟩, ?_⟩
      rw [hbefore, MethodBody.tokens, hrow]
      rfl
  | type hd =>
    obtain ⟨htokens, _, hread⟩ := hd hwf
    refine ⟨htokens, fun hlexical hunmodified => ?_⟩
    obtain ⟨z, hz, _, hrow⟩ := hread hlexical hunmodified
    exact ⟨.type z, hz, hrow⟩

theorem rewords_members {xs ys : List Member}
    (h : Each (Change.Member rewordsExpr rewordsBlock rewordsDecl) s xs s' ys)
    (hwf : Member.WellFormedAll xs) : Reworded true (Member.tokensAll xs) (Member.tokensAll ys) true
      ∧ ((∀ t ∈ Member.tokensAll ys, t.Lexical) → Outline.Unmodified (Member.outlineAll ys) →
        ∃ zs, Member.WellFormedAll zs ∧ Member.tokensAll zs = Member.tokensAll ys) := by
  induction h with
  | nil => exact ⟨.nil, fun _ _ => ⟨[], trivial, rfl⟩⟩
  | cons hx _ ih =>
    obtain ⟨htokens, hread⟩ := rewords_member hx hwf.1
    obtain ⟨hmore, hreads⟩ := ih hwf.2
    refine ⟨htokens.append hmore, fun hlexical hunmodified => ?_⟩
    rw [Member.tokensAll, List.forall_mem_append] at hlexical
    rw [Member.outlineAll, Outline.unmodified_cons] at hunmodified
    obtain ⟨z, hz, hrow⟩ := hread hlexical.1 hunmodified.1
    obtain ⟨zs, hzs, hrows⟩ := hreads hlexical.2 hunmodified.2
    exact ⟨z :: zs, ⟨hz, hzs⟩, by rw [Member.tokensAll, Member.tokensAll, hrow, hrows]⟩

/-- The text of a declaration whose members are exchanged, and perhaps the types that it extends,
stays readable. -/
theorem rewords_decl {d : TypeDecl} {extending : Option TypeClause} {members : List Member}
    (hclause : ∀ c ∈ extending, c.WellFormed)
    (hheader : ∃ e, Reworded true
      (modifierTokens d.modifiers
        ++ headerTokens d.kindLead d.kind d.name d.typeParams d.extending d.implementing)
      (modifierTokens d.modifiers
        ++ headerTokens d.kindLead d.kind d.name d.typeParams extending d.implementing) e)
    (h : Each (Change.Member rewordsExpr rewordsBlock rewordsDecl) s d.body.members s' members) :
    rewordsDecl s d s' { d with extending, body := { d.body with members } } := by
  intro hwf
  obtain ⟨id, lead, modifiers, kindLead, kind, name, params, old, implementing, body⟩ := d
  obtain ⟨bodyId, opened, inside, close⟩ := body
  obtain ⟨hdeclares, hbody⟩ := hwf
  obtain ⟨htokens, hread⟩ := rewords_members h hbody
  obtain ⟨_, hheader⟩ := hheader
  refine ⟨Reworded.prependLead _ ?_, rfl, fun hlexical hunmodified => ?_⟩
  · rw [← List.append_assoc, ← List.append_assoc]
    exact hheader.around (htokens.around .nil)
  · have hl : ∀ t ∈ Member.tokensAll members, t.Lexical := by
      intro t ht
      refine lexical_prependLead.mp hlexical t ?_
      simp [TypeBody.tokens, ht]
    obtain ⟨zs, hzs, hrows⟩ := hread hl hunmodified.members
    refine ⟨⟨id, lead, modifiers, kindLead, kind, name, params, extending, implementing,
      ⟨bodyId, opened, zs, close⟩⟩, ⟨⟨hdeclares.bare, hdeclares.modifiers_ok, hdeclares.name_ok,
      hdeclares.typeParams_ok, hclause, hdeclares.implementing_ok⟩, hzs⟩, rfl, ?_⟩
    rw [TypeDecl.tokens, TypeDecl.tokens, TypeBody.tokens, TypeBody.tokens, hrows]

end Migration
