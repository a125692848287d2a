import Migration.Proofs.Rule.Readable
import Migration.Proofs.Traversal.Breaks

/-!
# Rules put in names only

What a rule puts into a module are names: configured ones, which have no line breaks, and full names that the
configured ones stand for, which are declared, imported or known (`SymbolTable.obeys_ofModule`). So a property
of line breaks is handed on by every pass, as long as the known names have it (`Recipe.pass_inherits`).
-/

namespace Migration

open Change (Each)
open Text (BreakLaw)
open Token (word symbol)

variable {P : List Char → Prop}

/-! ### Names that are put in -/

/-- What a name stands for has the property if the name has it. -/
def SymbolTable.Obeys (P : List Char → Prop) (symbols : SymbolTable) : Prop :=
  ∀ name full, P name.toList → symbols.qualify name = .type full → P full.toList

/-- Declared and imported names have no line breaks, so it is the known ones that matter. -/
theorem SymbolTable.obeys_ofModule (hP : BreakLaw P) {m : Module} (hm : m.WellFormed) {index : TypeIndex}
    (hindex : ∀ name ∈ index.toList, P name.toList) : (SymbolTable.ofModule m index).Obeys P := by
  intro name full hname hfull
  rcases qualify_cases hfull with rfl | ⟨_, ⟨d, hd, _, rfl⟩ | ⟨i, hi, hsingle, _, rfl⟩ | hknown⟩
  · exact hname
  · refine hP.unbroken (unbroken_of_isDottedText ((declared_spelled hm hd).isDottedText fun p hp => ?_))
    obtain ⟨package, hpackage, rfl⟩ := Option.map_eq_some_iff.mp hp
    exact hm.package package hpackage
  · exact hP.unbroken (unbroken_of_isDottedText (hm.imports i hi))
  · exact hindex full (TypeIndex.mem_candidates.mp hknown).1

namespace TypePattern

theorem unbroken_simpleName (p : TypePattern) : Text.Unbroken p.simpleName.toList :=
  Name.unbroken_of_isIdentifier (Name.isIdentifier_simple p.valid)

theorem obeys_qualifiedIn (hP : BreakLaw P) {p : TypePattern} {symbols : SymbolTable}
    (hsymbols : symbols.Obeys P) {full : String} (h : p.qualifiedIn? symbols = some full) :
    P full.toList :=
  hsymbols _ _ (hP.unbroken (Name.unbroken_of_isTypeName p.valid)) (qualifiedIn?_eq_some h)

end TypePattern

/-! ### Rows that are put in -/

/-- A dotted name, with no trivia but in front of it, has the property behind them. -/
theorem behind_dottedTokens (hP : BreakLaw P) (lead : Trivia) {ss : List String}
    (h : ∀ s ∈ ss, P s.toList) : Behind P (dottedTokens lead ss) := by
  cases ss with
  | nil => trivial
  | cons s ss =>
    obtain ⟨hs, hss⟩ := List.forall_mem_cons.mp h
    have hempty : P "".toList := hP.unbroken (List.forall_mem_nil _)
    refine ⟨hs, fun t ht => ?_⟩
    obtain ⟨r, hr, ht⟩ := List.mem_flatMap.mp ht
    simp only [List.mem_cons, List.not_mem_nil, or_false] at ht
    rcases ht with rfl | rfl
    · exact ⟨hempty, hP.unbroken (by decide)⟩
    · exact ⟨hempty, hss r hr⟩

theorem head?_typeHeadTokens (lead : Trivia) (name : String) :
    (typeHeadTokens lead name).head?.map (·.lead) = some lead := by
  rw [typeHeadTokens]
  split
  · rfl
  · rw [nameTokens]
    cases h : Name.segments name with
    | nil => exact absurd h (Name.segments_ne_nil name)
    | cons s ss => rfl

/-- A use of a type may get another name. -/
theorem inherits_withName (hP : BreakLaw P) (t : TypeName) {name : String} (h : P name.toList) :
    Inherits P t.tokens (t.withName name).tokens := by
  rw [t.tokens_withName, t.tokens_eq]
  refine .before ⟨?_, fun _ => ?_⟩ _
  · rw [head?_typeHeadTokens, head?_typeHeadTokens]
  · rw [typeHeadTokens]
    split
    · have hany : Text.Unbroken "?".toList := by decide
      exact ⟨hP.unbroken hany, List.forall_mem_nil _⟩
    · exact behind_dottedTokens hP _ (hP.segments h)

/-- An expression may be replaced by a chain of names after the same trivia. -/
theorem inherits_chain (hP : BreakLaw P) {old new : Expr} {ss : List String} (h : new.Chain old.lead ss)
    (hss : ∀ s ∈ ss, P s.toList) : Inherits P old.tokens new.tokens := by
  refine ⟨?_, fun _ => ?_⟩
  · rw [new.head?_tokens, old.head?_tokens, h.lead_eq]
  · rw [h.tokens_eq]
    exact behind_dottedTokens hP _ hss

/-! ### The rules -/

section Rules

variable (hP : BreakLaw P) {symbols : SymbolTable} (hsymbols : symbols.Obeys P)

include hP hsymbols

/-- **Changing a superclass hands a property of line breaks on.** -/
theorem SupertypeChange.respects_inherits (c : SupertypeChange) :
    Pass.Respects (c.hooks symbols) (inheritsExpr P) (inheritsBlock P) (inheritsDecl P) where
  quiet _ _ := rfl
  expr := by
    intro s s₁ s₂ x y r hask hbelow
    obtain ⟨rfl, rfl⟩ := askExpr_hooks hask
    exact inherits_below hbelow
  block := inherits_block
  decl := by
    intro s s₁ s₂ d r members hask hmembers
    rcases replace_cases hask with ⟨rfl, _⟩ | ⟨id, lead, t, after, name, _, hextending, _, rfl, hcase⟩
    · exact inherits_decl (.refl P _) hmembers
    · have hname : P name.toList := by
        rcases hcase with ⟨_, hfull, _⟩ | ⟨_, rfl, _⟩
        · exact TypePattern.obeys_qualifiedIn hP hsymbols hfull
        · exact hP.unbroken c.new.unbroken_simpleName
      refine inherits_decl ?_ hmembers
      rw [hextending]
      exact .cons _ (inherits_withName hP t hname)

/-- A constant that moves hands the property on. -/
theorem ConstantTable.inherits_replaced {t : ConstantTable}
    (ht : ∀ c ∈ t.entries, P c.newMember.toList) {a : FieldAccess} {s s' : PassState} {x : Expr}
    (h : t.replace symbols a s = (some x, s')) : Inherits P (Expr.access a).tokens x.tokens := by
  rcases replace_cases h with ⟨hnone, _⟩ | ⟨c, _, target, owner, hc, _, _, hx, _, hcase⟩
  · cases hnone
  cases hx
  obtain ⟨id, old, dot, ⟨nameId, nameLead, name⟩, oldOwner⟩ := a
  have htarget : Inherits P old.tokens target.tokens := by
    rcases hcase with ⟨_, rfl, _⟩ | ⟨_, i, hi, rfl, _⟩ | ⟨_, _, full, hfull, rfl, _⟩
    · exact .refl P _
    · obtain rfl : old = .name i := hi
      exact inherits_chain hP .name
        (List.forall_mem_singleton.mpr (hP.unbroken c.newOwner.unbroken_simpleName))
    · exact inherits_chain hP (chain_nameChain _ _ full)
        (hP.segments (TypePattern.obeys_qualifiedIn hP hsymbols hfull))
  refine htarget.append ⟨rfl, fun ⟨htext, hname⟩ => ⟨htext, ?_⟩⟩
  exact List.forall_mem_singleton.mpr
    ⟨(hname _ List.mem_cons_self).1, ht c (mem_of_find? hc)⟩

/-- **Moving constants hands a property of line breaks on.** -/
theorem ConstantTable.respects_inherits {t : ConstantTable}
    (ht : ∀ c ∈ t.entries, P c.newMember.toList) :
    Pass.Respects (t.hooks symbols) (inheritsExpr P) (inheritsBlock P) (inheritsDecl P) where
  quiet _ _ := rfl
  expr := by
    intro s s₁ s₂ x y r hask hbelow
    have hbelow := inherits_below hbelow
    cases x with
    | access a =>
      have hhook : t.replace symbols a s = (r, s₁) := Option.some.inj hask
      cases r with
      | none => exact hbelow
      | some z => exact (inherits_replaced hP hsymbols ht hhook).trans hbelow
    | _ =>
      obtain ⟨rfl, rfl⟩ := Pass.pure_eq_some.mp hask
      exact hbelow
  block := inherits_block
  decl := by
    intro s s₁ s₂ d r members hask hmembers
    obtain rfl : r = none := by
      have hpair : ((none : Option TypeDecl), s) = (r, s₁) := hask
      cases hpair
      rfl
    exact inherits_decl (.refl P _) hmembers

end Rules

/-! ### Passes -/

/-- The members that a recipe writes have the property. -/
def Recipe.MembersObey (P : List Char → Prop) : Recipe → Prop
  | .changeConstant t => ∀ c ∈ t.entries, P c.newMember.toList
  | .changeConstants t => ∀ c ∈ t.entries, P c.newMember.toList
  | _ => True

/-- **A pass hands a property of line breaks on**, type by type, and leaves the trivia in front of the types
alone. -/
theorem Recipe.pass_inherits (hP : BreakLaw P) {r : Recipe}
    {pass : SymbolTable → Module → Pass PassState (Option Module)} (hr : r.pass? = some pass)
    (hmembers : r.MembersObey P) {symbols : SymbolTable} (hsymbols : symbols.Obeys P) {m : Module}
    {s s' : PassState} {changed : Option Module} (hrun : pass symbols m s = some (changed, s')) :
    ∃ types, Each (inheritsDecl P) s m.types s' types ∧ changed.getD m = { m with types } := by
  cases r with
  | changeSupertype c =>
    cases hr
    exact (c.respects_inherits hP hsymbols).transform_each _ hrun
  | changeConstant t =>
    cases hr
    exact (ConstantTable.respects_inherits hP hsymbols hmembers).transform_each _ hrun
  | changeConstants t =>
    cases hr
    exact (ConstantTable.respects_inherits hP hsymbols hmembers).transform_each _ hrun
  | pipeline name recipes => cases hr

end Migration
