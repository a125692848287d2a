import Migration.Proofs.Traversal.Transform
import Migration.Proofs.Tree.Chains

/-!
# Changes that leave a tree readable

A pass that exchanges names in expressions must leave a tree that can be read again. The change of
expressions that does (`rewritesExpr`) keeps an expression well formed and its accesses tight, spells
it with other names of two segments or more, and turns chains of names into chains of names. From it
follow the changes of blocks and of type declarations (`rewritesBlock`, `rewritesDecl`): an expression
that is a statement does not start to look like a variable, nor does a variable stop to.
-/

namespace Migration

open Change (Each Opt Item Bracketed Below)
open Outline (Tight tight_append tight_cons)
open Token (word symbol)

variable {σ : Type} {s s' : σ}

/-! ### Expressions -/

/-- The expression can be read, `dotted` telling whether a dot follows it, and its accesses are
tight. -/
structure Expr.Readable (dotted : Bool) (e : Expr) : Prop where
  tight : Tight [e.outline]
  wellFormed : e.WellFormed dotted

/-- What an expression may be exchanged for. -/
structure Expr.Rewritten (dotted : Bool) (x y : Expr) : Prop where
  readable : y.Readable dotted
  level : y.level = x.level
  tokens : ∃ e, Respelled 2 true x.tokens y.tokens e
  chain : ∀ {lead ss}, x.Chain lead ss → ∃ ss', y.Chain lead ss'

/-- The change of expressions that leaves them readable. -/
def rewritesExpr : Change σ Expr :=
  fun _ x _ y => ∀ dotted, x.Readable dotted → x.Rewritten dotted y

theorem rewrites_items {xs ys : List (Padded Expr)} (h : Each (Item rewritesExpr) s xs s' ys)
    (htight : Tight (Expr.outlineAll xs)) (hwf : ItemsOk (Expr.WellFormed false) xs) :
    Tight (Expr.outlineAll ys) ∧ ItemsOk (Expr.WellFormed false) ys
      ∧ ∃ e, Respelled 2 true (itemTokens Expr.tokens xs) (itemTokens Expr.tokens ys) e := by
  induction h with
  | nil => exact ⟨htight, trivial, true, .nil⟩
  | @cons s s₁ s₂ x y xs ys hx hrest ih =>
    obtain ⟨hx⟩ := hx
    obtain ⟨htx, htxs⟩ := tight_cons.mp htight
    cases hrest with
    | nil =>
      obtain ⟨hy, _, htokens, _⟩ := hx false ⟨htx, hwf.1⟩
      exact ⟨tight_cons.mpr ⟨hy.tight, htxs⟩, ⟨hy.wellFormed, hwf.2⟩, htokens⟩
    | cons _ _ =>
      obtain ⟨hy, _, ⟨_, htokens⟩, _⟩ := hx false ⟨htx, hwf.1⟩
      obtain ⟨htys, hwfs, e, hmore⟩ := ih htxs hwf.2
      exact ⟨tight_cons.mpr ⟨hy.tight, htys⟩, ⟨hy.wellFormed, hwfs⟩, e, htokens.around hmore⟩

theorem rewrites_listing {x y : Listing Expr} (h : Bracketed rewritesExpr s x s' y)
    (htight : Tight (Expr.outlineAll x.items)) (hwf : Expr.WellFormedAll x.items) :
    Tight (Expr.outlineAll y.items) ∧ Expr.WellFormedAll y.items
      ∧ ∀ b, Respelled 2 b (x.tokens "(" ")" Expr.tokens) (y.tokens "(" ")" Expr.tokens) true := by
  obtain ⟨hitems⟩ := h
  rw [Expr.wellFormedAll_iff] at hwf ⊢
  obtain ⟨hty, hwfy, _, htokens⟩ := rewrites_items hitems htight hwf
  exact ⟨hty, hwfy, fun b => .same (htokens.around .nil)⟩

theorem opens_of_operatorLevel (lead : Trivia) {op : String}
    (h : operatorLevel op < operatorLevels.length) : (symbol lead op).opens = true := by
  have hdot : op ≠ "." := by
    rintro rfl
    exact absurd h (by decide)
  rw [Token.opens, Token.symbol_kind, Token.symbol_text, Bool.and_eq_true, bne_iff_ne, bne_iff_ne]
  exact ⟨by decide, hdot⟩

/-- What is directly below an expression may be exchanged. -/
theorem rewritten_below {x y : Expr} (h : Below rewritesExpr s x s' y) {dotted : Bool}
    (hx : x.Readable dotted) : x.Rewritten dotted y := by
  cases h with
  | name => exact ⟨hx, rfl, Respelled.refl _ _ _, fun h => ⟨_, h⟩⟩
  | literal => exact ⟨hx, rfl, Respelled.refl _ _ _, fun h => ⟨_, h⟩⟩
  | @access _ _ a target htarget =>
    obtain ⟨id, old, dot, ⟨nameId, nameLead, name⟩, owner⟩ := a
    obtain ⟨⟨hdot, hlead⟩, ht⟩ := Outline.tight_access.mp hx.tight
    obtain ⟨hwf, hlevel, hname, howner⟩ := hx.wellFormed
    obtain ⟨hnew, hnewLevel, ⟨_, htokens⟩, hchain⟩ := htarget true ⟨ht, hwf⟩
    refine ⟨⟨Outline.tight_access.mpr ⟨⟨hdot, hlead⟩, hnew.tight⟩, hnew.wellFormed,
      hnewLevel.trans hlevel, hname, howner⟩, rfl, ⟨_, htokens.around (.same .nil)⟩, fun h => ?_⟩
    cases h with
    | access h _ _ _ =>
      obtain ⟨ss, hss⟩ := hchain h
      exact ⟨_, hss.access id nameId name⟩
  | @call _ _ _ c target args htarget hargs =>
    obtain ⟨id, old, dot, name, list⟩ := c
    obtain ⟨htt, hta⟩ := Outline.tight_call.mp hx.tight
    cases htarget with
    | none =>
      obtain ⟨hdot, hname, hitems⟩ := hx.wellFormed
      obtain ⟨htight, hwf, htokens⟩ := rewrites_listing hargs hta hitems
      refine ⟨⟨Outline.tight_call.mpr ⟨htt, htight⟩, hdot, hname, hwf⟩, rfl, ⟨true, ?_⟩,
        fun h => by cases h⟩
      rw [Expr.tokens_call, Expr.tokens_call]
      exact .same (htokens _)
    | some htarget =>
      obtain ⟨hwft, hlevel, hname, hitems⟩ := hx.wellFormed
      obtain ⟨htight, hwf, htokens⟩ := rewrites_listing hargs hta hitems
      obtain ⟨hnew, hnewLevel, ⟨_, hrow⟩, _⟩ := htarget true ⟨htt, hwft⟩
      refine ⟨⟨Outline.tight_call.mpr ⟨hnew.tight, htight⟩, hnew.wellFormed, hnewLevel.trans hlevel, hname,
        hwf⟩, rfl, ⟨true, ?_⟩, fun h => by cases h⟩
      rw [Expr.tokens_memberCall, Expr.tokens_memberCall]
      exact hrow.around (.same (htokens _))
  | @create _ _ c args hargs =>
    obtain ⟨id, lead, type, list⟩ := c
    obtain ⟨htype, hitems⟩ := hx.wellFormed
    obtain ⟨htight, hwf, htokens⟩ :=
      rewrites_listing hargs (Outline.tight_create.mp hx.tight) hitems
    refine ⟨⟨Outline.tight_create.mpr htight, htype, hwf⟩, rfl, ⟨true, ?_⟩, fun h => by cases h⟩
    rw [Expr.tokens_create, Expr.tokens_create]
    obtain ⟨_, hrefl⟩ := Respelled.refl 2 (word lead "new").opens type.tokens
    exact .same (hrefl.append (htokens _))
  | @binary _ _ _ b left right hleft hright =>
    obtain ⟨id, old, opLead, op, old'⟩ := b
    obtain ⟨htl, htr⟩ := Outline.tight_binary.mp hx.tight
    obtain ⟨hwfl, hwfr, hop, hone, hle, hlt⟩ := hx.wellFormed
    obtain ⟨hl, hlevel, ⟨_, hrow⟩, _⟩ := hleft false ⟨htl, hwfl⟩
    obtain ⟨hr, hlevel', ⟨e, hrow'⟩, _⟩ := hright false ⟨htr, hwfr⟩
    rw [← hlevel] at hone hle
    rw [← hlevel'] at hlt
    rw [← opens_of_operatorLevel opLead hop] at hrow'
    exact ⟨⟨Outline.tight_binary.mpr ⟨hl.tight, hr.tight⟩, hl.wellFormed, hr.wellFormed, hop, hone, hle,
      hlt⟩, rfl, ⟨e, hrow.around hrow'⟩, fun h => by cases h⟩
  | @parens _ _ p inner hinner =>
    obtain ⟨id, lead, old, close⟩ := p
    obtain ⟨hnew, _, ⟨_, hrow⟩, _⟩ :=
      hinner false ⟨Outline.tight_parens.mp hx.tight, hx.wellFormed⟩
    exact ⟨⟨Outline.tight_parens.mpr hnew.tight, hnew.wellFormed⟩, rfl,
      ⟨true, .same (hrow.around .nil)⟩, fun h => by cases h⟩

/-! ### Statements -/

theorem rewrites_var {v w : Variable} (h : Change.Var rewritesExpr s v s' w)
    (htight : Tight v.outlines) (hwf : v.WellFormed) :
    Tight w.outlines ∧ w.WellFormed ∧ Respelled 2 true v.bareTokens w.bareTokens true
      ∧ Respelled 2 true v.tokens w.tokens true := by
  obtain ⟨hvalue⟩ := h
  rw [Outline.tight_var] at htight ⊢
  have hbare {w : Variable} (hlead : w.lead = v.lead)
      (h : Respelled 2 true v.bareTokens w.bareTokens true) :
      Respelled 2 true v.bareTokens w.bareTokens true ∧ Respelled 2 true v.tokens w.tokens true := by
    refine ⟨h, ?_⟩
    rw [Variable.tokens_eq, Variable.tokens_eq, hlead]
    exact h.prependLead _
  obtain ⟨id, lead, modifiers, type, name, value, semi⟩ := v
  cases hvalue with
  | none =>
    refine ⟨htight, hwf, hbare rfl ?_⟩
    rw [Variable.bareTokens_eq]
    exact .before _ .nil
  | some hinit =>
    obtain ⟨hx⟩ := hinit
    obtain ⟨hy, _, ⟨_, htokens⟩, _⟩ := hx false ⟨htight, hwf.value _ rfl⟩
    refine ⟨hy.tight, ⟨hwf.declares, ?_⟩, hbare rfl ?_⟩
    · rintro i ⟨⟩
      exact hy.wellFormed
    · rw [Variable.bareTokens_eq, Variable.bareTokens_eq]
      simp only [Variable.bodyTokens, optionTokens, Initializer.tokens]
      simp only [← List.append_assoc]
      simp only [List.append_assoc _ (_ :: _), List.cons_append]
      exact .before _ (htokens.around .nil)

/-- The change of blocks that leaves them readable. -/
def rewritesBlock : Change σ Block :=
  fun _ b _ c => Tight [b.outline] → b.WellFormed →
    Tight [c.outline] ∧ c.WellFormed ∧ ∀ f, Respelled 2 f b.tokens c.tokens true

theorem rewrites_stmt {x y : Stmt} (h : Change.Stmt rewritesExpr rewritesBlock s x s' y)
    (htight : Tight x.outlines) (hwf : x.WellFormed) :
    Tight y.outlines ∧ y.WellFormed ∧ Respelled 2 true x.tokens y.tokens true := by
  cases h with
  | @expr _ _ x expr hx =>
    obtain ⟨hbare, hexpr, hlooks⟩ := hwf
    obtain ⟨hy, _, ⟨_, htokens⟩, _⟩ := hx false ⟨htight, hexpr⟩
    have hrow : Respelled 2 true (x.expr.tokens ++ [symbol x.semi ";"])
        (expr.tokens ++ [symbol x.semi ";"]) true := htokens.around .nil
    exact ⟨hy.tight, ⟨htokens.headBare hbare, hy.wellFormed, fun h => hlooks (hrow.looksVariable h)⟩,
      hrow.prependLead _⟩
  | localVar hv =>
    obtain ⟨hw, hwf', hbare, htokens⟩ := rewrites_var hv htight hwf.1
    exact ⟨hw, ⟨hwf', hbare.symm.looksVariable hwf.2⟩, htokens⟩
  | @ret _ _ x value hx =>
    obtain ⟨id, lead, old, semi⟩ := x
    cases hx with
    | none => exact ⟨htight, hwf, .same (.same .nil)⟩
    | some hx =>
      obtain ⟨hy, _, ⟨_, htokens⟩, _⟩ := hx false ⟨htight, hwf _ rfl⟩
      refine ⟨hy.tight, ?_, .same (htokens.around .nil)⟩
      rintro e ⟨⟩
      exact hy.wellFormed
  | block hb =>
    obtain ⟨hc, hwfc, htokens⟩ := hb htight hwf
    exact ⟨hc, hwfc, htokens true⟩

theorem rewrites_statements {xs ys : List Stmt}
    (h : Each (Change.Stmt rewritesExpr rewritesBlock) s xs s' ys)
    (htight : Tight (Stmt.outlineAll xs)) (hwf : Stmt.WellFormedAll xs) :
    Tight (Stmt.outlineAll ys) ∧ Stmt.WellFormedAll ys
      ∧ Respelled 2 true (Stmt.tokensAll xs) (Stmt.tokensAll ys) true := by
  induction h with
  | nil => exact ⟨htight, trivial, .nil⟩
  | cons hx _ ih =>
    rw [Stmt.outlineAll, tight_append] at htight ⊢
    obtain ⟨hty, hwfy, htokens⟩ := rewrites_stmt hx htight.1 hwf.1
    obtain ⟨htys, hwfys, hmore⟩ := ih htight.2 hwf.2
    exact ⟨⟨hty, htys⟩, ⟨hwfy, hwfys⟩, htokens.append hmore⟩

/-- A block whose statements are exchanged stays readable. -/
theorem rewrites_block {b : Block} {statements : List Stmt}
    (h : Each (Change.Stmt rewritesExpr rewritesBlock) s b.statements s' statements) :
    rewritesBlock s b s' { b with statements } := by
  intro htight hwf
  obtain ⟨id, lead, old, close⟩ := b
  rw [Outline.tight_block] at htight ⊢
  obtain ⟨hts, hwfs, htokens⟩ := rewrites_statements h htight hwf
  exact ⟨hts, hwfs, fun f => .same (htokens.around .nil)⟩

/-! ### Declarations -/

/-- The change of type declarations that leaves them readable, with names of `n` segments or more
exchanged in the header. -/
def rewritesDecl (n : Nat) : Change σ TypeDecl :=
  fun _ d _ e => Tight [d.outline] → d.WellFormed →
    Tight [e.outline] ∧ e.WellFormed ∧ Respelled n true d.tokens e.tokens true

theorem rewrites_body {x y : MethodBody} (h : Change.Body rewritesBlock s x s' y)
    (htight : Tight x.outlines) (hwf : x.WellFormed) :
    Tight y.outlines ∧ y.WellFormed ∧ ∀ f, Respelled 2 f x.tokens y.tokens true := by
  cases h with
  | block hb => exact hb htight hwf
  | absent => exact ⟨htight, hwf, fun f => .same .nil⟩

theorem rewrites_member {n : Nat} (hn : n ≤ 2) {x y : Member}
    (h : Change.Member rewritesExpr rewritesBlock (rewritesDecl n) s x s' y)
    (htight : Tight [x.outline]) (hwf : x.WellFormed) :
    Tight [y.outline] ∧ y.WellFormed ∧ Respelled n true x.tokens y.tokens true := by
  cases h with
  | field hv =>
    obtain ⟨hw, hwf', _, htokens⟩ := rewrites_var hv (Outline.tight_field.mp htight) hwf
    exact ⟨Outline.tight_field.mpr hw, hwf', htokens.mono hn⟩
  | @method _ _ m body hbody =>
    obtain ⟨hb, hwfb, htokens⟩ := rewrites_body hbody (Outline.tight_method.mp htight) hwf.body
    refine ⟨Outline.tight_method.mpr hb, ⟨hwf.declares, hwf.constructs, hwf.params, hwfb⟩, ?_⟩
    refine Respelled.prependLead _ ?_
    simp only [← List.append_assoc]
    obtain ⟨_, hrefl⟩ := Respelled.refl n true (modifierTokens m.modifiers
      ++ optionTokens TypeName.tokens m.returnType ++ m.name.tokens
      ++ m.params.tokens "(" ")" Param.tokens)
    exact hrefl.append ((htokens _).mono hn)
  | type hd => exact hd htight hwf

theorem rewrites_members {n : Nat} (hn : n ≤ 2) {xs ys : List Member}
    (h : Each (Change.Member rewritesExpr rewritesBlock (rewritesDecl n)) s xs s' ys)
    (htight : Tight (Member.outlineAll xs)) (hwf : Member.WellFormedAll xs) :
    Tight (Member.outlineAll ys) ∧ Member.WellFormedAll ys
      ∧ Respelled n true (Member.tokensAll xs) (Member.tokensAll ys) true := by
  induction h with
  | nil => exact ⟨htight, trivial, .nil⟩
  | cons hx _ ih =>
    rw [Member.outlineAll, tight_cons] at htight ⊢
    obtain ⟨hty, hwfy, htokens⟩ := rewrites_member hn hx htight.1 hwf.1
    obtain ⟨htys, hwfys, hmore⟩ := ih htight.2 hwf.2
    exact ⟨⟨hty, htys⟩, ⟨hwfy, hwfys⟩, htokens.append hmore⟩

/-- A declaration whose members are exchanged, and perhaps the types that it extends, stays
readable. -/
theorem rewrites_decl {n : Nat} (hn : n ≤ 2) {d : TypeDecl} {extending : Option TypeClause}
    {members : List Member} (hclause : ∀ c ∈ extending, c.WellFormed)
    (hheader : ∃ e, Respelled n true
      (modifierTokens d.modifiers
        ++ headerTokens d.kindLead d.kind d.name d.typeParams d.extending d.implementing)
      (modifierTokens d.modifiers
        ++ headerTokens d.kindLead d.kind d.name d.typeParams extending d.implementing) e)
    (h : Each (Change.Member rewritesExpr rewritesBlock (rewritesDecl n)) s d.body.members s'
      members)
    (htight : Tight [d.outline]) (hwf : d.WellFormed) :
    Tight [TypeDecl.outline { d with extending, body := { d.body with members } }]
      ∧ TypeDecl.WellFormed { d with extending, body := { d.body with members } }
      ∧ Respelled n true d.tokens
        (TypeDecl.tokens { d with extending, body := { d.body with members } }) true := by
  rw [Outline.tight_typeDecl] at htight ⊢
  obtain ⟨id, lead, modifiers, kindLead, kind, name, params, old, implementing, body⟩ := d
  obtain ⟨bodyId, opened, inside, close⟩ := body
  obtain ⟨hdeclares, hbody⟩ := hwf
  obtain ⟨hts, hwfs, htokens⟩ := rewrites_members hn h htight hbody
  obtain ⟨_, hheader⟩ := hheader
  refine ⟨hts, ⟨⟨hdeclares.bare, hdeclares.modifiers_ok, hdeclares.name_ok, hdeclares.typeParams_ok,
    hclause, hdeclares.implementing_ok⟩, hwfs⟩, Respelled.prependLead _ ?_⟩
  rw [← List.append_assoc, ← List.append_assoc]
  exact hheader.around (htokens.around .nil)

end Migration
