import Migration.Proofs.Rule.Notes
import Migration.Proofs.Scope.Declared
import Migration.Proofs.Scope.Lookup
import Migration.Proofs.Traversal.Readable

/-!
# Rules leave modules readable

The names that a rule writes are configured, declared, imported or known, and all of these can be
read (`SymbolTable.readable_ofModule`). A constant that moves is a chain of names before and after,
with the same trivia in front, whatever else happens inside it; a new superclass stands where the old
one stood. So every pass of a rule leaves a module whose types can be read again
(`Recipe.pass_readable`).
-/

namespace Migration

open Change (Each)
open Outline (Tight tight_cons)
open Token (word symbol)

/-! ### Names that are written -/

/-- What a name that can be read stands for can be read. -/
def SymbolTable.Readable (symbols : SymbolTable) : Prop :=
  ∀ name full, isDottedText false name = true → symbols.qualify name = .type full →
    isDottedText false full = true

theorem SymbolTable.readable_ofModule {m : Module} (hm : m.WellFormed) {index : TypeIndex}
    (hindex : ∀ name ∈ index.toList, isDottedText false name = true) :
    (SymbolTable.ofModule m index).Readable := by
  intro name full hname hfull
  rcases qualify_cases hfull with rfl | ⟨_, ⟨d, hd, _, rfl⟩ | ⟨i, hi, hsingle, _, rfl⟩ | hknown⟩
  · exact hname
  · refine (declared_spelled hm hd).isDottedText fun p hp => ?_
    obtain ⟨package, hpackage, rfl⟩ := Option.map_eq_some_iff.mp hp
    exact hm.package package hpackage
  · have hread := hm.imports i hi
    rw [Import.isSingleType, Bool.and_eq_true, Bool.not_eq_true', Bool.not_eq_true'] at hsingle
    rw [Import.WellFormed, hsingle.2] at hread
    exact hread
  · exact hindex full (TypeIndex.mem_candidates.mp hknown).1

/-- The configured name of a type can be read. -/
def TypePattern.Readable (p : TypePattern) : Prop := isDottedText false p.spelled = true

theorem TypePattern.Readable.simpleName {p : TypePattern} (h : p.Readable) :
    isNameText p.simpleName = true := isNameText_simple h

theorem TypePattern.Readable.qualifiedIn {p : TypePattern} (h : p.Readable) {symbols : SymbolTable}
    (hsymbols : symbols.Readable) {full : String} (hfull : p.qualifiedIn? symbols = some full) :
    isDottedText false full = true :=
  hsymbols _ _ h (qualifiedIn?_eq_some hfull)

/-- The configured names of a move can be read. -/
structure ConstantChange.Readable (c : ConstantChange) : Prop where
  oldMember : isNameText c.oldMember = true
  newOwner : c.newOwner.Readable
  newMember : isNameText c.newMember = true

/-! ### Constants -/

/-- Members of two chains after the same trivia may be exchanged for each other. -/
theorem Expr.Chain.rewritten_access {target target' : Expr} {lead : Trivia} {ss ss' : List String}
    (h : target.Chain lead ss) (h' : target'.Chain lead ss') (hss : isChainText true ss = true)
    (hss' : isChainText true ss' = true) {id nameId : NodeId} {name name' : String}
    (hname : isNameText name = true) (hname' : isNameText name' = true) {dotted : Bool} :
    (Expr.access ⟨id, target, "", ⟨nameId, "", name⟩, none⟩).Rewritten dotted
      (.access ⟨id, target', "", ⟨nameId, "", name'⟩, none⟩) := by
  have hx := h.access id nameId name
  have hy := h'.access id nameId name'
  have htext {dotted : Bool} {rs : List String} {r : String} (hne : rs ≠ [])
      (hrs : isChainText true rs = true) (hr : isNameText r = true) :
      isChainText dotted (rs ++ [r]) = true :=
    (isChainText_concat hne).mpr ⟨hrs, isSegmentText_of_isNameText _ hr⟩
  have htwo {rs : List String} (hrs : rs ≠ []) (r : String) : 2 ≤ (rs ++ [r]).length := by
    rw [List.length_append, List.length_singleton]
    exact Nat.succ_le_succ (List.length_pos_iff.mpr hrs)
  refine ⟨⟨hy.tight, hy.wellFormed_iff.mpr (htext h'.ne_nil hss' hname')⟩, rfl, ⟨true, ?_⟩,
    fun hchain => ?_⟩
  · have hrow : Respelled 2 true (dottedTokens lead (ss ++ [name]) ++ [])
        (dottedTokens lead (ss' ++ [name']) ++ []) true :=
      .name (htext h.ne_nil hss hname) (htext h'.ne_nil hss' hname') (htwo h.ne_nil name)
        (htwo h'.ne_nil name') .nil
    rw [List.append_nil, List.append_nil, ← hx.tokens_eq, ← hy.tokens_eq] at hrow
    exact hrow
  · rw [← hchain.lead_eq, hx.lead_eq]
    exact ⟨_, hy⟩

/-- What replaces a constant is a chain again, and the rest of the pass leaves it one. -/
theorem ConstantTable.rewritten_replaced {t : ConstantTable} (ht : ∀ c ∈ t.entries, c.Readable)
    {symbols : SymbolTable} (hsymbols : symbols.Readable) {a : FieldAccess} {s s₁ s₂ : PassState}
    {x y : Expr} (hask : t.replace symbols a s = (some x, s₁))
    (hbelow : Change.Below rewritesExpr s₁ x s₂ y) {dotted : Bool}
    (ha : (Expr.access a).Readable dotted) : (Expr.access a).Rewritten dotted y := by
  rcases replace_cases hask with
    ⟨hnone, _⟩ | ⟨c, spelled, target, owner, hc, hspelled, _, hx, howner, hcase⟩
  · cases hnone
  cases hx
  have hread := ht c (mem_of_find? hc)
  have hmember := member_of_find? hc
  obtain ⟨id, old, dot, ⟨nameId, nameLead, name⟩, oldOwner⟩ := a
  obtain ⟨⟨hdot, hlead⟩, htight⟩ := Outline.tight_access.mp ha.tight
  obtain ⟨hwf, hlevel, hname, hnone⟩ := ha.wellFormed
  obtain rfl : dot = "" := hdot
  obtain rfl : nameLead = "" := hlead
  obtain rfl : oldOwner = none := hnone
  obtain rfl : owner = none := howner rfl
  obtain rfl : name = c.oldMember := hmember
  obtain ⟨ss, hold⟩ := old.chain_of_dottedName? hspelled htight hwf
  -- The new target is a chain after the same trivia.
  have htarget : ∃ ss', target.Chain old.lead ss' ∧ isChainText true ss' = true := by
    rcases hcase with ⟨_, rfl, _⟩ | ⟨_, i, hi, rfl, _⟩ | ⟨_, _, full, hfull, rfl, _⟩
    · exact ⟨ss, hold, hold.wellFormed_iff.mp hwf⟩
    · obtain rfl : old = .name i := hi
      exact ⟨[c.newOwner.simpleName], .name, isChainText_cons.mpr ⟨hread.newOwner.simpleName, rfl⟩⟩
    · refine ⟨_, chain_nameChain _ _ full, isChainText_mono (a := false) (fun h => by cases h) ?_⟩
      rw [← isDottedText_eq]
      exact hread.newOwner.qualifiedIn hsymbols hfull
  obtain ⟨ss', hchain, htext⟩ := htarget
  obtain ⟨below, hinside, rfl⟩ := hbelow.access_inv
  obtain ⟨hnew, _, _, hchains⟩ := hinside true ⟨hchain.tight, hchain.wellFormed_iff.mpr htext⟩
  obtain ⟨ss'', hnewChain⟩ := hchains hchain
  exact hold.rewritten_access hnewChain (hold.wellFormed_iff.mp hwf)
    (hnewChain.wellFormed_iff.mp hnew.wellFormed) hread.oldMember hread.newMember

/-- **Moving constants leaves what it changes readable.** -/
theorem ConstantTable.respects_readable {t : ConstantTable} (ht : ∀ c ∈ t.entries, c.Readable)
    {symbols : SymbolTable} (hsymbols : symbols.Readable) :
    Pass.Respects (t.hooks symbols) rewritesExpr rewritesBlock (rewritesDecl 2) where
  quiet _ _ := rfl
  expr := by
    intro s s₁ s₂ x y r hask hbelow dotted hx
    cases x with
    | access a =>
      have hhook : t.replace symbols a s = (r, s₁) := Option.some.inj hask
      cases r with
      | none => exact rewritten_below hbelow hx
      | some z => exact rewritten_replaced ht hsymbols hhook hbelow hx
    | _ =>
      obtain ⟨rfl, rfl⟩ := Pass.pure_eq_some.mp hask
      exact rewritten_below hbelow hx
  block := rewrites_block
  decl := by
    intro s s₁ s₂ d r members hask hmembers htight hwf
    obtain ⟨rfl, rfl⟩ : r = none ∧ s₁ = s := by
      have hpair : ((none : Option TypeDecl), s) = (r, s₁) := hask
      cases hpair
      exact ⟨rfl, rfl⟩
    have hext : ∀ c ∈ d.extending, c.WellFormed := by
      obtain ⟨_, _, _, _, _, _, _, _, _, _⟩ := d
      exact hwf.1.extending_ok
    exact rewrites_decl (Nat.le_refl 2) hext (Respelled.refl _ _ _) hmembers htight hwf

/-! ### Superclasses -/

/-- A use of a type with another name has another name in front of the same tokens. -/
theorem TypeName.tokens_withName (t : TypeName) (name : String) :
    (t.withName name).tokens
      = typeHeadTokens t.lead name ++ optionTokens TypeArguments.tokens t.args := by
  obtain ⟨id, lead, old, args, resolved⟩ := t
  cases args with
  | none => exact (List.append_nil _).symm
  | some args => rfl

theorem typeHeadTokens_of_isDottedText {lead : Trivia} {name : String}
    (h : isDottedText false name = true) :
    typeHeadTokens lead name = dottedTokens lead (Name.segments name) := by
  rw [typeHeadTokens, if_neg (ne_any_of_isDottedText h), nameTokens]

/-- A type whose simple name is an identifier is no wildcard. -/
theorem isDottedText_of_simpleName {t : TypeName} {p : TypePattern} (ht : isTypeText t.name = true)
    (hsimple : t.simpleName = p.simpleName) : isDottedText false t.name = true := by
  rw [isTypeText, Bool.or_eq_true, beq_iff_eq] at ht
  refine ht.resolve_left fun hany => ?_
  have hvalid := Name.isIdentifier_simple p.valid
  have hname : Name.simple p.spelled = "?" := by
    rw [← TypePattern.simpleName, ← hsimple, TypeName.simpleName, hany]
    decide
  exact (Name.ne_of_isIdentifier hvalid).2 hname

/-- A header with another superclass is a respelling. -/
theorem respelled_superclass {d : TypeDecl} {id : NodeId} {lead after : Trivia} {t : TypeName}
    {name : String} (hextending : d.extending = some ⟨id, lead, [⟨t, after⟩]⟩)
    (hold : isDottedText false t.name = true) (hnew : isDottedText false name = true) :
    ∃ e, Respelled 1 true
      (modifierTokens d.modifiers
        ++ headerTokens d.kindLead d.kind d.name d.typeParams d.extending d.implementing)
      (modifierTokens d.modifiers
        ++ headerTokens d.kindLead d.kind d.name d.typeParams
          (some ⟨id, lead, [⟨t.withName name, after⟩]⟩) d.implementing) e := by
  have hself : t.tokens = (t.withName t.name).tokens := by
    obtain ⟨_, _, _, args, _⟩ := t
    cases args <;> rfl
  have hone {n : String} (h : isDottedText false n = true) :
      isChainText false (Name.segments n) = true ∧ 1 ≤ (Name.segments n).length := by
    rw [isDottedText_eq] at h
    exact ⟨h, List.length_pos_iff.mpr (isChainText_ne_nil h)⟩
  obtain ⟨e, hrest⟩ := Respelled.refl 1 true (optionTokens TypeArguments.tokens t.args
    ++ optionTokens (TypeClause.tokens "implements") d.implementing)
  refine ⟨e, ?_⟩
  rw [hextending]
  -- What stands in front of the superclass is the same in both rows.
  have hrow (u : TypeName) : modifierTokens d.modifiers ++ headerTokens d.kindLead d.kind d.name
      d.typeParams (some ⟨id, lead, [⟨u, after⟩]⟩) d.implementing
      = (modifierTokens d.modifiers ++ word d.kindLead d.kind.keyword
        :: (d.name.tokens ++ optionTokens TypeArguments.tokens d.typeParams))
        ++ word lead "extends" :: (u.tokens
          ++ optionTokens (TypeClause.tokens "implements") d.implementing) := by
    simp only [headerTokens, List.append_assoc, List.cons_append]
    rfl
  have hopens : (word lead "extends").opens = true := rfl
  have hnamed {n : String} (h : isDottedText false n = true) : (t.withName n).tokens
      ++ optionTokens (TypeClause.tokens "implements") d.implementing
      = dottedTokens t.lead (Name.segments n) ++ (optionTokens TypeArguments.tokens t.args
        ++ optionTokens (TypeClause.tokens "implements") d.implementing) := by
    rw [t.tokens_withName, typeHeadTokens_of_isDottedText h, List.append_assoc]
  rw [hrow, hrow, hself, hnamed hold, hnamed hnew]
  refine .before _ ?_
  rw [hopens]
  exact .name (hone hold).1 (hone hnew).1 (hone hold).2 (hone hnew).2 hrest

/-- A declaration with another superclass has a header that can be read, and that is a respelling of the
old one. -/
theorem SupertypeChange.replaced_header {c : SupertypeChange} (hnew : c.new.Readable)
    {symbols : SymbolTable} (hsymbols : symbols.Readable) {s s₁ : PassState} {d : TypeDecl}
    {r : Option TypeDecl} (hask : c.replace symbols d s = (r, s₁)) (hwf : d.WellFormed) :
    ∃ extending : Option TypeClause, r.getD d = { d with extending }
      ∧ (∀ clause ∈ extending, clause.WellFormed)
      ∧ ∃ e, Respelled 1 true
        (modifierTokens d.modifiers
          ++ headerTokens d.kindLead d.kind d.name d.typeParams d.extending d.implementing)
        (modifierTokens d.modifiers
          ++ headerTokens d.kindLead d.kind d.name d.typeParams extending d.implementing) e := by
  have hextends : ∀ clause ∈ d.extending, clause.WellFormed := by
    obtain ⟨_, _, _, _, _, _, _, _, _, _⟩ := d
    exact hwf.1.extending_ok
  rcases replace_cases hask with
    ⟨rfl, _⟩ | ⟨id, lead, t, after, name, _, hextending, hsimple, rfl, hcase⟩
  · refine ⟨d.extending, ?_, hextends, Respelled.refl _ _ _⟩
    obtain ⟨_, _, _, _, _, _, _, _, _, _⟩ := d
    rfl
  · obtain ⟨ht, hafter⟩ := (hextends _ hextending).types
    rw [TypeName.wellFormed_iff] at ht
    have hread : isDottedText false name = true := by
      rcases hcase with ⟨_, hfull, _⟩ | ⟨_, rfl, _⟩
      · exact hnew.qualifiedIn hsymbols hfull
      · exact isDottedText_of_isNameText hnew.simpleName
    refine ⟨_, rfl, ?_,
      respelled_superclass hextending (isDottedText_of_simpleName ht.1 hsimple) hread⟩
    rintro clause ⟨⟩
    refine ⟨List.cons_ne_nil _ _, ?_, hafter⟩
    rw [TypeName.wellFormed_iff]
    exact ⟨by rw [isTypeText, TypeName.withName, hread, Bool.or_true], rfl, ht.2.2⟩

/-- **Changing a superclass leaves what it changes readable.** -/
theorem SupertypeChange.respects_readable {c : SupertypeChange} (hnew : c.new.Readable)
    {symbols : SymbolTable} (hsymbols : symbols.Readable) :
    Pass.Respects (c.hooks symbols) rewritesExpr rewritesBlock (rewritesDecl 1) where
  quiet _ _ := rfl
  expr := by
    intro s s₁ s₂ x y r hask hbelow dotted hx
    obtain ⟨rfl, rfl⟩ := SupertypeChange.askExpr_hooks hask
    exact rewritten_below hbelow hx
  block := rewrites_block
  decl := by
    intro s s₁ s₂ d r members hask hmembers htight hwf
    obtain ⟨extending, hreplaced, hextends, hheader⟩ := replaced_header hnew hsymbols hask hwf
    rw [hreplaced] at hmembers ⊢
    exact rewrites_decl (by decide) hextends hheader hmembers htight hwf

/-! ### Passes -/

theorem rewrites_types {σ : Type} {n : Nat} {s s' : σ} {xs ys : List TypeDecl}
    (h : Each (rewritesDecl n) s xs s' ys) (htight : Tight (xs.map TypeDecl.outline))
    (hwf : ∀ d ∈ xs, d.WellFormed) :
    Tight (ys.map TypeDecl.outline) ∧ (∀ d ∈ ys, d.WellFormed)
      ∧ Respelled n true (xs.flatMap TypeDecl.tokens) (ys.flatMap TypeDecl.tokens) true := by
  induction h with
  | nil => exact ⟨htight, hwf, .nil⟩
  | cons hx _ ih =>
    rw [List.map_cons, tight_cons] at htight ⊢
    obtain ⟨hwfx, hwfxs⟩ := List.forall_mem_cons.mp hwf
    obtain ⟨hty, hwfy, htokens⟩ := hx htight.1 hwfx
    obtain ⟨htys, hwfys, hmore⟩ := ih htight.2 hwfxs
    exact ⟨⟨hty, htys⟩, List.forall_mem_cons.mpr ⟨hwfy, hwfys⟩, htokens.append hmore⟩

namespace Recipe

mutual

/-- The names that the recipe may write can be read. -/
def Readable : Recipe → Prop
  | .changeSupertype c => c.new.Readable
  | .changeConstant t => ∀ c ∈ t.entries, c.Readable
  | .changeConstants t => ∀ c ∈ t.entries, c.Readable
  | .pipeline _ recipes => ReadableAll recipes
termination_by structural r => r

/-- The names that several recipes may write can be read. -/
def ReadableAll : List Recipe → Prop
  | [] => True
  | r :: rs => Readable r ∧ ReadableAll rs
termination_by structural rs => rs

end

/-- **A pass leaves the types of a module readable**: well formed, tight, and a respelling of what
they were. -/
theorem pass_readable {r : Recipe} {pass : SymbolTable → Module → Pass PassState (Option Module)}
    (hr : r.pass? = some pass) (hread : r.Readable) {symbols : SymbolTable}
    (hsymbols : symbols.Readable) {m : Module} {s s' : PassState} {changed : Option Module}
    (hrun : pass symbols m s = some (changed, s')) (htight : Tight (m.types.map TypeDecl.outline))
    (hwf : ∀ d ∈ m.types, d.WellFormed) :
    ∃ types, changed.getD m = { m with types } ∧ Tight (types.map TypeDecl.outline)
      ∧ (∀ d ∈ types, d.WellFormed)
      ∧ Respelled 1 true (m.types.flatMap TypeDecl.tokens) (types.flatMap TypeDecl.tokens) true := by
  have hconstant {t : ConstantTable} (ht : ∀ c ∈ t.entries, c.Readable)
      (hrun : t.pass symbols m s = some (changed, s')) :
      ∃ types, changed.getD m = { m with types } ∧ Tight (types.map TypeDecl.outline)
        ∧ (∀ d ∈ types, d.WellFormed) ∧ Respelled 1 true (m.types.flatMap TypeDecl.tokens)
          (types.flatMap TypeDecl.tokens) true := by
    obtain ⟨types, heach, hout⟩ :=
      (ConstantTable.respects_readable ht hsymbols).transform_each _ hrun
    obtain ⟨htys, hwfys, htokens⟩ := rewrites_types heach htight hwf
    exact ⟨types, hout, htys, hwfys, htokens.mono (by decide)⟩
  cases r with
  | changeSupertype c =>
    cases hr
    obtain ⟨types, heach, hout⟩ :=
      (SupertypeChange.respects_readable hread hsymbols).transform_each _ hrun
    exact ⟨types, hout, rewrites_types heach htight hwf⟩
  | changeConstant t =>
    cases hr
    exact hconstant hread hrun
  | changeConstants t =>
    cases hr
    exact hconstant hread hrun
  | pipeline name recipes => cases hr

end Recipe

end Migration
