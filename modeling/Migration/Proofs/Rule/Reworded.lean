import Migration.Proofs.Rule.Readable
import Migration.Proofs.Traversal.Reworded

/-!
# Rules leave texts readable

The same rules as before, on modules whose accesses may have trivia around their dots. A constant that
moves is a chain of names before and after, and no comment stays open inside the new one: its trivia are
those of the old one, or there are none. A new superclass leaves expressions alone, so that the types
themselves can be read. In any case the text of what a pass leaves is read as some module, which is written
with the same tokens and has the same trivia in front of its types (`Recipe.pass_reworded`).
-/

namespace Migration

open Change (Each)
open Token (word symbol)

/-! ### Constants -/

/-- Members of two chains after the same trivia may be exchanged for each other. -/
theorem Expr.reworded_access {target target' : Expr} (hwf : target.WellFormed true)
    (hwf' : target'.WellFormed true) (hlevel : target'.level = operatorLevels.length)
    (hspelled : target.dottedName?.isSome = true) (hspelled' : target'.dottedName?.isSome = true)
    (hlead : target'.lead = target.lead) (hclosed : ClosedInside target.tokens → ClosedInside target'.tokens)
    {id nameId : NodeId} {dot nameLead : Trivia} {name name' : String} (hname : isNameText name = true)
    (hname' : isNameText name' = true) {dotted : Bool} :
    (Expr.access ⟨id, target, dot, ⟨nameId, nameLead, name⟩, none⟩).Exchanged dotted
      (.access ⟨id, target', dot, ⟨nameId, nameLead, name'⟩, none⟩) := by
  have hinside : ClosedInside (target.tokens ++ [symbol dot ".", word nameLead name]) →
      ClosedInside (target'.tokens ++ [symbol dot ".", word nameLead name']) := by
    intro h
    obtain ⟨htarget, hmember⟩ := (closedInside_append target.tokens_ne_nil).mp h
    exact (closedInside_append target'.tokens_ne_nil).mpr ⟨hclosed htarget, fun t ht => by
      simp only [List.mem_cons, List.not_mem_nil, or_false] at ht
      rcases ht with rfl | rfl
      · exact hmember (symbol dot ".") List.mem_cons_self
      · exact hmember (word nameLead name) (List.mem_cons_of_mem _ List.mem_cons_self)⟩
  have hchain := target.chainTokens hspelled hwf
  have hchain' := target'.chainTokens hspelled' hwf'
  rw [hlead] at hchain'
  refine ⟨⟨hwf', hlevel, isSegmentText_of_isNameText dotted hname', rfl⟩, rfl, ⟨true, ?_⟩, fun _ => ?_⟩
  · have hrow : Reworded true
        (target.tokens ++ [symbol dot ".", word nameLead name] ++ [])
        (target'.tokens ++ [symbol dot ".", word nameLead name'] ++ []) true :=
      .chain (.member hchain (isWordText_of_isNameText hname))
        (.member hchain' (isWordText_of_isNameText hname')) hinside .nil
    rw [List.append_nil, List.append_nil] at hrow
    exact hrow
  · exact ⟨by simpa [Expr.dottedName?] using hspelled', hlead, hinside⟩

/-- What replaces a constant is a chain again, and the rest of the pass leaves it one. -/
theorem ConstantTable.reworded_replaced {t : ConstantTable} (ht : ∀ c ∈ t.entries, c.Readable)
    {symbols : SymbolTable} (hsymbols : symbols.Readable) {a : FieldAccess} {s s₁ s₂ : PassState}
    {x y : Expr} (hask : t.replace symbols a s = (some x, s₁))
    (hbelow : Change.Below rewordsExpr s₁ x s₂ y) {dotted : Bool}
    (ha : (Expr.access a).WellFormed dotted) : (Expr.access a).Exchanged dotted y := by
  rcases replace_cases hask with
    ⟨hnone, _⟩ | ⟨c, spelled, target, owner, hc, hspelled, _, hx, howner, hcase⟩
  · cases hnone
  cases hx
  have hread := ht c (mem_of_find? hc)
  have hmember := member_of_find? hc
  obtain ⟨id, old, dot, ⟨nameId, nameLead, name⟩, oldOwner⟩ := a
  obtain ⟨hwf, hlevel, _, hnone⟩ := ha
  obtain rfl : oldOwner = none := hnone
  obtain rfl : owner = none := howner rfl
  obtain rfl : name = c.oldMember := hmember
  have hold : old.dottedName?.isSome = true := Option.isSome_of_eq_some hspelled
  -- The new target is a chain after the same trivia, with none inside it but those of the old one.
  have htarget : target.WellFormed true ∧ target.level = operatorLevels.length
      ∧ target.dottedName?.isSome = true ∧ target.lead = old.lead
      ∧ (ClosedInside old.tokens → ClosedInside target.tokens) := by
    rcases hcase with ⟨_, rfl, _⟩ | ⟨_, i, hi, rfl, _⟩ | ⟨_, _, full, hfull, rfl, _⟩
    · exact ⟨hwf, hlevel, hold, rfl, fun h => h⟩
    · obtain rfl : old = .name i := hi
      exact ⟨hread.newOwner.simpleName, rfl, rfl, rfl, fun _ => List.forall_mem_nil _⟩
    · have hchain := chain_nameChain s.nextId old.lead full
      refine ⟨hchain.wellFormed_iff.mpr (isChainText_mono (a := false) (fun h => by cases h) ?_),
        hchain.level_eq, Option.isSome_of_eq_some (dottedName?_nameChain _ _ _), hchain.lead_eq,
        fun _ => ?_⟩
      · rw [← isDottedText_eq]
        exact hread.newOwner.qualifiedIn hsymbols hfull
      · dsimp only
        rw [hchain.tokens_eq]
        exact closedInside_dotted _ _
  obtain ⟨hwf', hlevel', hspelled', hlead, hclosed⟩ := htarget
  obtain ⟨below, hinside, rfl⟩ := hbelow.access_inv
  obtain ⟨hnew, hnewLevel, _, hchains⟩ := hinside true hwf'
  obtain ⟨hnewSpelled, hnewLead, hnewClosed⟩ := hchains hspelled'
  exact Expr.reworded_access hwf hnew (hnewLevel.trans hlevel') hold hnewSpelled (hnewLead.trans hlead)
    (fun h => hnewClosed (hclosed h)) hread.oldMember hread.newMember

/-- **Moving constants leaves the text of what it changes readable.** -/
theorem ConstantTable.respects_reworded {t : ConstantTable} (ht : ∀ c ∈ t.entries, c.Readable)
    {symbols : SymbolTable} (hsymbols : symbols.Readable) :
    Pass.Respects (t.hooks symbols) rewordsExpr rewordsBlock rewordsDecl where
  quiet _ _ := rfl
  expr := by
    intro s s₁ s₂ x y r hask hbelow dotted hx
    cases x with
    | access a =>
      have hhook : t.replace symbols a s = (r, s₁) := Option.some.inj hask
      cases r with
      | none => exact reworded_below hbelow hx
      | some z => exact reworded_replaced ht hsymbols hhook hbelow hx
    | _ =>
      obtain ⟨rfl, rfl⟩ := Pass.pure_eq_some.mp hask
      exact reworded_below hbelow hx
  block := rewords_block
  decl := by
    intro s s₁ s₂ d r members hask hmembers hwf
    obtain ⟨rfl, rfl⟩ : r = none ∧ s₁ = s := by
      have hpair : ((none : Option TypeDecl), s) = (r, s₁) := hask
      cases hpair
      exact ⟨rfl, rfl⟩
    have hext : ∀ c ∈ d.extending, c.WellFormed := by
      obtain ⟨_, _, _, _, _, _, _, _, _, _⟩ := d
      exact hwf.1.extending_ok
    exact rewords_decl hext (Reworded.refl _ _) hmembers hwf

/-! ### Superclasses -/

/-- **Changing a superclass leaves the text of what it changes readable.** -/
theorem SupertypeChange.respects_reworded {c : SupertypeChange} (hnew : c.new.Readable)
    {symbols : SymbolTable} (hsymbols : symbols.Readable) :
    Pass.Respects (c.hooks symbols) rewordsExpr rewordsBlock rewordsDecl where
  quiet _ _ := rfl
  expr := by
    intro s s₁ s₂ x y r hask hbelow dotted hx
    obtain ⟨rfl, rfl⟩ := SupertypeChange.askExpr_hooks hask
    exact reworded_below hbelow hx
  block := rewords_block
  decl := by
    intro s s₁ s₂ d r members hask hmembers hwf
    obtain ⟨extending, hreplaced, hextends, _, hheader⟩ := replaced_header hnew hsymbols hask hwf
    rw [hreplaced] at hmembers ⊢
    obtain ⟨_, _, hheader⟩ := hheader.reworded fun h => h
    exact rewords_decl hextends ⟨_, hheader⟩ hmembers hwf

theorem wellFormed_members {s s' : PassState} {xs ys : List Member}
    (h : Each (Change.Member Change.Same Change.Same fun _ d _ e => d.WellFormed → e.WellFormed) s xs s' ys)
    (hwf : Member.WellFormedAll xs) : Member.WellFormedAll ys := by
  induction h with
  | nil => trivial
  | cons hx _ ih =>
    refine ⟨?_, ih hwf.2⟩
    have hwf := hwf.1
    cases hx with
    | field hv =>
      obtain ⟨rfl, rfl⟩ := hv.same
      exact hwf
    | @method _ _ m body hbody =>
      obtain ⟨_, _, _, _, _, _, old⟩ := m
      cases hbody with
      | block hb =>
        obtain ⟨rfl, rfl⟩ := hb
        exact hwf
      | absent => exact hwf
    | type hd => exact hd hwf

/-- The declarations themselves can be read as well, since no expression changes. -/
theorem SupertypeChange.respects_wellFormed {c : SupertypeChange} (hnew : c.new.Readable)
    {symbols : SymbolTable} (hsymbols : symbols.Readable) :
    Pass.Respects (c.hooks symbols) Change.Same Change.Same
      fun _ d _ e => d.WellFormed → e.WellFormed := by
  refine respects_of_decl ?_
  intro s s₁ s₂ d r members hask hmembers hwf
  obtain ⟨extending, hreplaced, hextends, _⟩ := replaced_header hnew hsymbols hask hwf
  rw [hreplaced]
  obtain ⟨_, _, _, _, _, _, _, _, _, ⟨_, _, _, _⟩⟩ := d
  obtain ⟨hdeclares, hbody⟩ := hwf
  exact ⟨⟨hdeclares.bare, hdeclares.modifiers_ok, hdeclares.name_ok, hdeclares.typeParams_ok, hextends,
    hdeclares.implementing_ok⟩, wellFormed_members hmembers hbody⟩

/-! ### Passes -/

theorem rewords_types {σ : Type} {s s' : σ} {xs ys : List TypeDecl}
    (h : Each rewordsDecl s xs s' ys) (hwf : ∀ d ∈ xs, d.WellFormed) :
    Reworded true (xs.flatMap TypeDecl.tokens) (ys.flatMap TypeDecl.tokens) true
      ∧ ys.map (·.lead) = xs.map (·.lead)
      ∧ ((∀ t ∈ ys.flatMap TypeDecl.tokens, t.Lexical) →
        Outline.Unmodified (ys.map TypeDecl.outline) → ∃ zs, ReadAs ys zs) := by
  induction h with
  | nil => exact ⟨.nil, rfl, fun _ _ => ⟨[], .nil⟩⟩
  | cons hx _ ih =>
    obtain ⟨hwfx, hwfxs⟩ := List.forall_mem_cons.mp hwf
    obtain ⟨htokens, hlead, hread⟩ := hx hwfx
    obtain ⟨hmore, hleads, hreads⟩ := ih hwfxs
    refine ⟨htokens.append hmore, by rw [List.map_cons, List.map_cons, hlead, hleads],
      fun hlexical hunmodified => ?_⟩
    rw [List.flatMap_cons, List.forall_mem_append] at hlexical
    rw [List.map_cons, Outline.unmodified_cons] at hunmodified
    obtain ⟨z, hz, hzlead, hrow⟩ := hread hlexical.1 hunmodified.1
    obtain ⟨zs, hzs⟩ := hreads hlexical.2 hunmodified.2
    exact ⟨z :: zs, .cons hz hzlead hrow hzs⟩

theorem wellFormed_types {σ : Type} {s s' : σ} {xs ys : List TypeDecl}
    (h : Each (fun _ d _ e => d.WellFormed → e.WellFormed) s xs s' ys) (hwf : ∀ d ∈ xs, d.WellFormed) :
    ∀ d ∈ ys, d.WellFormed := by
  induction h with
  | nil => exact List.forall_mem_nil _
  | cons hx _ ih =>
    obtain ⟨hwfx, hwfxs⟩ := List.forall_mem_cons.mp hwf
    exact List.forall_mem_cons.mpr ⟨hx hwfx, ih hwfxs⟩

/-- **A pass leaves the text of the types of a module readable**, and the trivia in front of them
alone. -/
theorem Recipe.pass_reworded {r : Recipe} {pass : SymbolTable → Module → Pass PassState (Option Module)}
    (hr : r.pass? = some pass) (hread : r.Readable) {symbols : SymbolTable}
    (hsymbols : symbols.Readable) {m : Module} {s s' : PassState} {changed : Option Module}
    (hrun : pass symbols m s = some (changed, s')) (hwf : ∀ d ∈ m.types, d.WellFormed) :
    ∃ types, changed.getD m = { m with types } ∧ types.map (·.lead) = m.types.map (·.lead)
      ∧ Reworded true (m.types.flatMap TypeDecl.tokens) (types.flatMap TypeDecl.tokens) true
      ∧ ((∀ t ∈ types.flatMap TypeDecl.tokens, t.Lexical) →
        (∃ c, r = .changeSupertype c) ∨ Outline.Unmodified (types.map TypeDecl.outline) →
          ∃ zs, ReadAs types zs) := by
  have hrespects : ∃ types, Each rewordsDecl s m.types s' types ∧ changed.getD m = { m with types } := by
    cases r with
    | changeSupertype c =>
      cases hr
      exact (SupertypeChange.respects_reworded hread hsymbols).transform_each _ hrun
    | changeConstant t =>
      cases hr
      exact (ConstantTable.respects_reworded hread hsymbols).transform_each _ hrun
    | changeConstants t =>
      cases hr
      exact (ConstantTable.respects_reworded hread hsymbols).transform_each _ hrun
    | pipeline name recipes => cases hr
  obtain ⟨types, heach, hout⟩ := hrespects
  obtain ⟨htokens, hleads, hreads⟩ := rewords_types heach hwf
  refine ⟨types, hout, hleads, htokens, fun hlexical hcase => ?_⟩
  rcases hcase with ⟨c, rfl⟩ | hunmodified
  · cases hr
    obtain ⟨types', heach', hout'⟩ :=
      (SupertypeChange.respects_wellFormed hread hsymbols).transform_each _ hrun
    obtain rfl : types' = types := congrArg Module.types (hout'.symm.trans hout)
    exact ⟨types', .refl (wellFormed_types heach' hwf)⟩
  · exact hreads hlexical hunmodified

end Migration
