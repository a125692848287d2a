import Migration.Proofs.Traversal.Accesses
import Migration.Proofs.Tree.Respelling
import Migration.Rule.Constant

/-!
# Chains of names

A dotted name in an expression is a chain of accesses on a simple name. Without trivia around its
dots such a chain is written with the tokens of a dotted name (`Chain.tokens_eq`), and it can be read
exactly when its segments can (`Chain.wellFormed_iff`). The chains that are put in for a full name
are of this kind (`chain_nameChain`).
-/

namespace Migration

open Outline (Tight Ownerless tight_access)
open Token (word symbol)

/-- The expression is a chain of names with no trivia but `lead` in front, nothing known of the types
of its accesses. -/
inductive Expr.Chain : Expr → Trivia → List String → Prop
  | name {id : NodeId} {lead : Trivia} {s : String} : Chain (.name ⟨id, lead, s⟩) lead [s]
  | access {target : Expr} {lead : Trivia} {ss : List String} :
      Chain target lead ss → ∀ (id member : NodeId) (s : String),
      Chain (.access ⟨id, target, "", ⟨member, "", s⟩, none⟩) lead (ss ++ [s])

namespace Expr.Chain

variable {e : Expr} {lead : Trivia} {ss : List String}

theorem ne_nil (h : e.Chain lead ss) : ss ≠ [] := by
  cases h with
  | name => exact List.cons_ne_nil _ _
  | access _ _ _ _ => exact List.append_ne_nil_of_right_ne_nil _ (List.cons_ne_nil _ _)

theorem lead_eq (h : e.Chain lead ss) : e.lead = lead := by
  induction h with
  | name => rfl
  | access _ _ _ _ ih => exact ih

theorem level_eq (h : e.Chain lead ss) : e.level = operatorLevels.length := by
  cases h with
  | name => rfl
  | access _ _ _ _ => rfl

theorem tight (h : e.Chain lead ss) : Tight [e.outline] := by
  induction h with
  | name => exact Outline.tight_of_collect rfl
  | access _ _ _ _ ih => exact tight_access.mpr ⟨⟨rfl, rfl⟩, ih⟩

theorem ownerless (h : e.Chain lead ss) : Ownerless [e.outline] := by
  induction h with
  | name => exact Outline.accesses_of_collect rfl
  | access _ _ _ _ ih => exact Outline.accesses_access.mpr ⟨rfl, ih⟩

/-- A chain spells the name that has its segments. -/
theorem dottedName?_eq (h : e.Chain lead ss) (hss : ∀ s ∈ ss, Name.Dotless s) :
    ∃ name, e.dottedName? = some name ∧ Name.segments name = ss := by
  induction h with
  | name => exact ⟨_, rfl, Name.segments_of_dotless (hss _ List.mem_cons_self)⟩
  | access _ _ _ s ih =>
    obtain ⟨hfront, hlast⟩ := List.forall_mem_append.mp hss
    obtain ⟨name, hname, hsegments⟩ := ih hfront
    refine ⟨Name.join name s, ?_, ?_⟩
    · rw [Expr.dottedName?, hname]
      rfl
    · rw [Name.join, Name.segments_join, hsegments,
        Name.segments_of_dotless (hlast s List.mem_cons_self)]

theorem dottedTokens_concat {ss : List String} (hne : ss ≠ []) (s : String) :
    dottedTokens lead (ss ++ [s]) = dottedTokens lead ss ++ [symbol "" ".", word "" s] := by
  cases ss with
  | nil => exact absurd rfl hne
  | cons t ts => simp [dottedTokens, dotTokens]

/-- **A chain is written like a dotted name.** -/
theorem tokens_eq (h : e.Chain lead ss) : e.tokens = dottedTokens lead ss := by
  induction h with
  | name => rfl
  | access htarget _ _ _ ih =>
    rw [dottedTokens_concat htarget.ne_nil, ← ih]
    rfl

/-- **A chain can be read when its segments can.** -/
theorem wellFormed_iff (h : e.Chain lead ss) {dotted : Bool} :
    e.WellFormed dotted ↔ isChainText dotted ss = true := by
  induction h generalizing dotted with
  | name =>
    rw [isChainText_cons]
    exact (and_iff_left rfl).symm
  | access htarget _ _ _ ih =>
    rw [isChainText_concat htarget.ne_nil, ← ih]
    exact ⟨fun h => ⟨h.1, h.2.2.1⟩, fun h => ⟨h.1, htarget.level_eq, h.2, rfl⟩⟩

end Expr.Chain

/-- An expression that spells a dotted name is a chain. -/
theorem Expr.chain_of_dottedName? : (e : Expr) → {name : String} → {dotted : Bool} →
    e.dottedName? = some name → Tight [e.outline] → e.WellFormed dotted →
      ∃ ss, e.Chain e.lead ss
  | .name ⟨_, _, s⟩, _, _, _, _, _ => ⟨[s], .name⟩
  | .access ⟨_, target, dot, ⟨_, memberLead, s⟩, owner⟩, _, _, hname, htight, hwf => by
    obtain ⟨spelled, hspelled, _⟩ := Option.map_eq_some_iff.mp hname
    obtain ⟨⟨hdot, hlead⟩, htarget⟩ := tight_access.mp htight
    obtain ⟨ss, hss⟩ := target.chain_of_dottedName? hspelled htarget hwf.1
    obtain rfl : dot = "" := hdot
    obtain rfl : memberLead = "" := hlead
    obtain rfl : owner = none := hwf.2.2.2
    exact ⟨ss ++ [s], .access hss _ _ s⟩
  | .call _, _, _, hname, _, _ => by cases hname
  | .create _, _, _, hname, _, _ => by cases hname
  | .literal _, _, _, hname, _, _ => by cases hname
  | .binary _, _, _, hname, _, _ => by cases hname
  | .parens _, _, _, hname, _, _ => by cases hname

theorem chain_chainOnto {target : Expr} {lead : Trivia} {ss : List String}
    (h : target.Chain lead ss) (nextId : NodeId) (names : List String) :
    (chainOnto target nextId names).1.Chain lead (ss ++ names) := by
  induction names generalizing target nextId ss with
  | nil =>
    rw [List.append_nil]
    exact h
  | cons name names ih =>
    have hnext := ih (h.access nextId (nextId + 1) name) (nextId + 2)
    rw [List.append_assoc] at hnext
    exact hnext

/-- The full name that is put in is a chain of its segments. -/
theorem chain_nameChain (nextId : NodeId) (lead : Trivia) (name : String) :
    (nameChain nextId lead name).1.Chain lead (Name.segments name) := by
  rw [nameChain]
  split
  case h_1 hnil => exact absurd hnil (Name.segments_ne_nil name)
  case h_2 first rest hsegments =>
    rw [hsegments]
    exact chain_chainOnto .name _ rest

theorem dottedName?_nameChain (nextId : NodeId) (lead : Trivia) (name : String) :
    (nameChain nextId lead name).1.dottedName? = some name := by
  obtain ⟨spelled, hspelled, hsegments⟩ := (chain_nameChain nextId lead name).dottedName?_eq
    fun s hs => Name.dotless_of_mem_segments hs
  rw [hspelled, Name.eq_of_segments hsegments]

end Migration
