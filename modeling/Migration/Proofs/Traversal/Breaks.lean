import Migration.Proofs.Token.Breaks
import Migration.Proofs.Traversal.Transform
import Migration.Proofs.Tree.Tokens

/-!
# What rows of tokens inherit

A pass leaves the trivia in front of a row of tokens alone. Behind them it puts other texts in, without trivia
of their own, so that a property of trivia and texts is handed on from the row before to the row after
(`Inherits`) as soon as the texts that are put in have it. Here this is carried from expressions to blocks and
type declarations (`inheritsBlock`, `inheritsDecl`), with nothing assumed of the tree.
-/

namespace Migration

open Change (Each Opt Item Bracketed Below)
open Token (word symbol)

variable {P : List Char → Prop}

/-! ### Rows -/

/-- The property holds of all trivia and texts behind the trivia in front of the row. -/
def Behind (P : List Char → Prop) : List Token → Prop
  | [] => True
  | t :: ts => P t.text.toList ∧ ∀ u ∈ ts, u.Obeys P

/-- The second row starts after the same trivia as the first one, and inherits a property of what is behind
them. -/
structure Inherits (P : List Char → Prop) (ts us : List Token) : Prop where
  head : us.head?.map (·.lead) = ts.head?.map (·.lead)
  behind : Behind P ts → Behind P us

namespace Inherits

variable {ts us vs ts' us' : List Token}

theorem refl (P : List Char → Prop) (ts : List Token) : Inherits P ts ts := ⟨rfl, fun h => h⟩

theorem trans (h : Inherits P ts us) (h' : Inherits P us vs) : Inherits P ts vs :=
  ⟨h'.head.trans h.head, fun hts => h'.behind (h.behind hts)⟩

theorem obeys (h : Inherits P ts us) (hts : ∀ t ∈ ts, t.Obeys P) : ∀ u ∈ us, u.Obeys P := by
  obtain ⟨hhead, hbehind⟩ := h
  cases ts with
  | nil =>
    obtain rfl : us = [] := by simpa using hhead
    exact hts
  | cons t ts =>
    cases us with
    | nil => cases hhead
    | cons u us =>
      obtain ⟨ht, hts⟩ := List.forall_mem_cons.mp hts
      obtain ⟨hu, hus⟩ := hbehind ⟨ht.2, hts⟩
      have hlead : u.lead = t.lead := Option.some.inj hhead
      exact List.forall_mem_cons.mpr ⟨⟨hlead ▸ ht.1, hu⟩, hus⟩

theorem append (h : Inherits P ts us) (h' : Inherits P ts' us') :
    Inherits P (ts ++ ts') (us ++ us') := by
  cases ts with
  | nil =>
    obtain rfl : us = [] := by simpa using h.head
    exact h'
  | cons t ts =>
    cases us with
    | nil => cases h.head
    | cons u us =>
      refine ⟨h.head, fun ⟨htext, hall⟩ => ?_⟩
      obtain ⟨hts, hts'⟩ := List.forall_mem_append.mp hall
      obtain ⟨hutext, hus⟩ := h.behind ⟨htext, hts⟩
      exact ⟨hutext, List.forall_mem_append.mpr ⟨hus, h'.obeys hts'⟩⟩

/-- The same row in front of both. -/
theorem after (vs : List Token) (h : Inherits P ts us) : Inherits P (vs ++ ts) (vs ++ us) :=
  (refl P vs).append h

theorem cons (t : Token) (h : Inherits P ts us) : Inherits P (t :: ts) (t :: us) := h.after [t]

/-- The same row behind both. -/
theorem before (h : Inherits P ts us) (vs : List Token) : Inherits P (ts ++ vs) (us ++ vs) :=
  h.append (refl P vs)

/-- Rows on both sides of a token that stays. -/
theorem around {t : Token} (h : Inherits P ts us) (h' : Inherits P ts' us') :
    Inherits P (ts ++ t :: ts') (us ++ t :: us') := h.append (h'.cons t)

theorem prependLead (lead : Trivia) (h : Inherits P ts us) :
    Inherits P (prependLead lead ts) (Migration.prependLead lead us) := by
  obtain ⟨hhead, hbehind⟩ := h
  cases ts with
  | nil =>
    obtain rfl : us = [] := by simpa using hhead
    exact refl P _
  | cons t ts =>
    cases us with
    | nil => cases hhead
    | cons u us =>
      have hlead : u.lead = t.lead := Option.some.inj hhead
      refine ⟨?_, hbehind⟩
      simp [Migration.prependLead, hlead]

end Inherits

/-! ### Expressions -/

theorem Literal.head?_tokens (l : Literal) : l.tokens.head?.map (·.lead) = some l.lead := by
  rw [tokens]
  split <;> rfl

/-- An expression starts after its trivia. -/
theorem Expr.head?_tokens : (e : Expr) → e.tokens.head?.map (·.lead) = some e.lead
  | .name _ => rfl
  | .access ⟨_, target, _, _, _⟩ => by
    rw [tokens, List.head?_append_of_ne_nil _ target.tokens_ne_nil]
    exact target.head?_tokens
  | .call ⟨_, none, _, _, _⟩ => by
    rw [tokens_call]
    rfl
  | .call ⟨_, some target, _, _, _⟩ => by
    rw [tokens_memberCall, List.head?_append_of_ne_nil _ target.tokens_ne_nil]
    exact target.head?_tokens
  | .create ⟨_, _, _, _⟩ => by
    rw [tokens_create]
    rfl
  | .literal l => l.head?_tokens
  | .binary ⟨_, left, _, _, _⟩ => by
    rw [tokens, List.head?_append_of_ne_nil _ left.tokens_ne_nil]
    exact left.head?_tokens
  | .parens ⟨_, _, _, _⟩ => rfl
termination_by structural e => e

variable {σ : Type} {s s' : σ}

/-- The change of expressions that hands the property on. -/
def inheritsExpr (P : List Char → Prop) : Change σ Expr := fun _ x _ y => Inherits P x.tokens y.tokens

theorem inherits_items {xs ys : List (Padded Expr)} (h : Each (Item (inheritsExpr P)) s xs s' ys) :
    Inherits P (itemTokens Expr.tokens xs) (itemTokens Expr.tokens ys) := by
  induction h with
  | nil => exact .refl P _
  | cons hx hrest ih =>
    obtain ⟨hx⟩ := hx
    cases hrest with
    | nil => exact hx
    | cons _ _ => exact hx.around ih

theorem inherits_listing {x y : Listing Expr} (h : Bracketed (inheritsExpr P) s x s' y) :
    Inherits P (x.tokens "(" ")" Expr.tokens) (y.tokens "(" ")" Expr.tokens) := by
  obtain ⟨hitems⟩ := h
  exact ((inherits_items hitems).before _).cons _

/-- What is directly below an expression hands the property on. -/
theorem inherits_below {x y : Expr} (h : Below (inheritsExpr P) s x s' y) :
    Inherits P x.tokens y.tokens := by
  cases h with
  | name => exact .refl P _
  | literal => exact .refl P _
  | @access _ _ a target htarget =>
    obtain ⟨_, _, _, _, _⟩ := a
    exact htarget.before _
  | @call _ _ _ c target args htarget hargs =>
    obtain ⟨_, _, _, _, _⟩ := c
    have hlist := inherits_listing hargs
    cases htarget with
    | none =>
      rw [Expr.tokens_call, Expr.tokens_call]
      exact hlist.after _
    | some htarget =>
      rw [Expr.tokens_memberCall, Expr.tokens_memberCall]
      exact htarget.around (hlist.after _)
  | @create _ _ c args hargs =>
    obtain ⟨_, _, _, _⟩ := c
    rw [Expr.tokens_create, Expr.tokens_create]
    exact ((inherits_listing hargs).after _).cons _
  | @binary _ _ _ b left right hleft hright =>
    obtain ⟨_, _, _, _, _⟩ := b
    exact hleft.around hright
  | @parens _ _ p inner hinner =>
    obtain ⟨_, _, _, _⟩ := p
    exact (hinner.before _).cons _

/-! ### Statements -/

theorem inherits_value {x y : Option Initializer} (h : Opt (Change.Init (inheritsExpr P)) s x s' y) :
    Inherits P (optionTokens Initializer.tokens x) (optionTokens Initializer.tokens y) := by
  cases h with
  | none => exact .refl P _
  | some hinit =>
    obtain ⟨hx⟩ := hinit
    exact hx.cons _

theorem inherits_var {v w : Variable} (h : Change.Var (inheritsExpr P) s v s' w) :
    Inherits P v.tokens w.tokens := by
  obtain ⟨hvalue⟩ := h
  exact .prependLead _ (.after _ (.after _ (.after _ ((inherits_value hvalue).before _))))

/-- The change of blocks that hands the property on. -/
def inheritsBlock (P : List Char → Prop) : Change σ Block := fun _ b _ c => Inherits P b.tokens c.tokens

theorem inherits_stmt {x y : Stmt} (h : Change.Stmt (inheritsExpr P) (inheritsBlock P) s x s' y) :
    Inherits P x.tokens y.tokens := by
  cases h with
  | expr hx => exact .prependLead _ (hx.before _)
  | localVar hv => exact inherits_var hv
  | @ret _ _ x value hx =>
    refine .cons _ (.before ?_ _)
    generalize x.value = old at hx
    cases hx with
    | none => exact .refl P _
    | some hx => exact hx
  | block hb => exact hb

theorem inherits_statements {xs ys : List Stmt}
    (h : Each (Change.Stmt (inheritsExpr P) (inheritsBlock P)) s xs s' ys) :
    Inherits P (Stmt.tokensAll xs) (Stmt.tokensAll ys) := by
  induction h with
  | nil => exact .refl P _
  | cons hx _ ih => exact (inherits_stmt hx).append ih

theorem inherits_block {b : Block} {statements : List Stmt}
    (h : Each (Change.Stmt (inheritsExpr P) (inheritsBlock P)) s b.statements s' statements) :
    inheritsBlock P s b s' { b with statements } := by
  obtain ⟨_, _, _, _⟩ := b
  exact ((inherits_statements h).before _).cons _

/-! ### Declarations -/

/-- The change of type declarations that hands the property on, whatever trivia stand in front of them. -/
def inheritsDecl (P : List Char → Prop) : Change σ TypeDecl := fun _ d _ e =>
  e.lead = d.lead ∧ ∀ lead, Inherits P (TypeDecl.tokens { d with lead }) (TypeDecl.tokens { e with lead })

theorem inherits_typeDecl {d e : TypeDecl} (h : inheritsDecl P s d s' e) :
    Inherits P d.tokens e.tokens := by
  obtain ⟨hlead, htokens⟩ := h
  obtain ⟨_, _, _, _, _, _, _, _, _, _⟩ := d
  obtain ⟨_, _, _, _, _, _, _, _, _, _⟩ := e
  cases hlead
  exact htokens _

theorem inherits_member {x y : Member}
    (h : Change.Member (inheritsExpr P) (inheritsBlock P) (inheritsDecl P) s x s' y) :
    Inherits P x.tokens y.tokens := by
  cases h with
  | field hv => exact inherits_var hv
  | @method _ _ m body hbody =>
    refine .prependLead _ (.after _ (.after _ (.after _ (.after _ ?_))))
    generalize m.body = old at hbody
    cases hbody with
    | block hb => exact hb
    | absent => exact .refl P _
  | type hd => exact inherits_typeDecl hd

theorem inherits_members {xs ys : List Member}
    (h : Each (Change.Member (inheritsExpr P) (inheritsBlock P) (inheritsDecl P)) s xs s' ys) :
    Inherits P (Member.tokensAll xs) (Member.tokensAll ys) := by
  induction h with
  | nil => exact .refl P _
  | cons hx _ ih => exact (inherits_member hx).append ih

/-- A declaration whose members change, and perhaps the types that it extends, hands the property on. -/
theorem inherits_decl {s₁ : σ} {d : TypeDecl} {extending : Option TypeClause} {members : List Member}
    (hextending : Inherits P (optionTokens (TypeClause.tokens "extends") d.extending)
      (optionTokens (TypeClause.tokens "extends") extending))
    (h : Each (Change.Member (inheritsExpr P) (inheritsBlock P) (inheritsDecl P)) s₁ d.body.members s'
      members) :
    inheritsDecl P s d s' { d with extending, body := { d.body with members } } := by
  obtain ⟨_, _, _, _, _, _, _, _, _, ⟨_, _, _, _⟩⟩ := d
  refine ⟨rfl, fun lead => .prependLead _ (.after _ (.append ?_ ?_))⟩
  · exact .cons _ (.after _ (.after _ (hextending.before _)))
  · exact ((inherits_members h).before _).cons _

end Migration
