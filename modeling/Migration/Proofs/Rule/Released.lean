import Migration.Proofs.Rule.Superclasses
import Migration.Proofs.Traversal.Carrying

/-!
# Imports that a pass gives up

A reference that is rewritten is one use less of the name that it was spelled with, and perhaps the last
one. The import of that name is given up in one case only: the reference was spelled without dots, and
the configured type is what that import stands for, by its simple name or by its full one. A reference
`Releases` an import when this is so, or when it was not made through the import at all.

Main result: a pass all of whose references release an import leaves it in use or gives it up
(`Recipe.pass_releases`). What is followed through the pass is a change of outlines (`Leaves`) that is
put together from its parts.
-/

namespace Migration

open Imports (isGivenUpBy)
open Outline (preorderAll preorderAll_append mentions mentions_append mentions_cons mentions_node)

/-! ### References that are rewritten -/

/-- A reference that a recipe rewrites: how it is spelled, and which configured type it is taken for. -/
structure Reference where
  spelled : String
  old : TypePattern

/-- The reference does not keep the import of its first segment from being removed: it is spelled without
dots, and the pass gives that import up. -/
def Reference.Releases (ref : Reference) (i : Import) : Prop :=
  Name.simple i.name = Name.head ref.spelled →
    Name.isQualified ref.spelled = false ∧ isGivenUpBy i ref.old.spelled = true

instance (ref : Reference) (i : Import) : Decidable (ref.Releases i) :=
  inferInstanceAs (Decidable (_ → _))

/-- The reference at a node, where there is one, releases the import. -/
def ReleasedAt (reference? : Node → Option Reference) (i : Import) (n : Node) : Prop :=
  ∀ ref ∈ reference? n, ref.Releases i

instance (reference? : Node → Option Reference) (i : Import) (n : Node) :
    Decidable (ReleasedAt reference? i n) :=
  inferInstanceAs (Decidable (∀ ref ∈ reference? n, ref.Releases i))

/-- The superclass that is rewritten at a node. -/
def SupertypeChange.reference? (c : SupertypeChange) (symbols : SymbolTable) :
    Node → Option Reference
  | .typeDecl d => do
    let t ← d.superclass?
    if c.old.matchesSuperclass symbols t
        && !(t.isQualified && (c.new.qualifiedIn? symbols).isNone) then
      return ⟨t.name, c.old⟩
    else none
  | _ => none

/-- The owner that is rewritten at a node. -/
def ConstantTable.reference? (t : ConstantTable) (symbols : SymbolTable) : Node → Option Reference
  | .access a => do
    let c ← t.find? symbols a
    let spelled ← a.target.dottedName?
    if c.ownerChanges && Name.isTypeQualifier spelled
        && (a.target.isName || (c.newOwner.qualifiedIn? symbols).isSome) then
      return ⟨spelled, c.oldOwner⟩
    else none
  | _ => none

/-- The reference that a recipe rewrites at a node. -/
def Recipe.reference? : Recipe → SymbolTable → Node → Option Reference
  | .changeSupertype c => c.reference?
  | .changeConstant t => t.reference?
  | .changeConstants t => t.reference?
  | .pipeline _ _ => fun _ _ => none

/-! ### Uses of a simple name -/

/-- The outlines name something that starts with the simple name. -/
def Outline.Uses (simple : String) (os : List Outline) : Prop :=
  ∃ name ∈ mentions [] os, Name.head name = simple

open Outline (Uses)

/-- The outlines in front of the members of a type. -/
def TypeDecl.front (d : TypeDecl) : List Outline :=
  outlineHeader d.modifiers d.typeParams d.extending d.implementing

section Uses

variable {simple : String}

theorem uses_congr {os ps : List Outline} (h : mentions [] os = mentions [] ps) :
    Uses simple os ↔ Uses simple ps := by rw [Uses, Uses, h]

theorem uses_append {os ps : List Outline} :
    Uses simple (os ++ ps) ↔ Uses simple os ∨ Uses simple ps := by
  simp only [Uses, mentions_append, List.mem_append, or_and_right, exists_or]

theorem uses_node {n : Node} (hn : n.mention? [] = none) (below : List Outline) :
    Uses simple [.node n below] ↔ Uses simple below := by
  refine uses_congr ?_
  rw [mentions_node, hn]
  rfl

theorem uses_typeName (t : TypeName) : Uses simple [t.outline] ↔
    Name.head t.name = simple ∨ Uses simple (t.args.toList.flatMap TypeArguments.outline) := by
  have hmentions : mentions [] [t.outline]
      = t.name :: mentions [] (t.args.toList.flatMap TypeArguments.outline) := by
    obtain ⟨id, lead, name, args, resolved⟩ := t
    cases args with
    | none => rfl
    | some args =>
      rw [TypeName.outline, mentions_node, Option.toList_some, List.flatMap_singleton]
      rfl
  simp only [Uses, hmentions, List.mem_cons, exists_eq_or_imp]

/-- The names in front of the members of a class with one superclass. -/
theorem uses_header (modifiers : List Ident) (typeParams : Option TypeArguments)
    (implementing : Option TypeClause) (id : NodeId) (lead after : Trivia) (t : TypeName) :
    Uses simple (outlineHeader modifiers typeParams (some ⟨id, lead, [⟨t, after⟩]⟩) implementing) ↔
      Uses simple [t.outline] ∨ Uses simple (outlineHeader modifiers typeParams none implementing) := by
  have hclause : (some (TypeClause.mk id lead [⟨t, after⟩])).toList.flatMap TypeClause.outlines
      = [t.outline] := rfl
  have hnone : Uses simple ((none : Option TypeClause).toList.flatMap TypeClause.outlines) ↔ False :=
    iff_of_false (fun ⟨_, hmem, _⟩ => nomatch hmem) not_false
  rw [outlineHeader, outlineHeader, hclause]
  simp only [uses_append, hnone, or_false, or_assoc, or_left_comm]

theorem uses_typeDecl (d : TypeDecl) : Uses simple [d.outline] ↔
    Uses simple d.front ∨ Uses simple (Member.outlineAll d.body.members) := by
  rw [← uses_append]
  refine uses_congr ?_
  rw [mentions_typeDecl, mentions_append, TypeDecl.front]

theorem Name.head_join (a b : String) : head (join a b) = head a := by
  cases ha : segments a with
  | nil => exact absurd ha (segments_ne_nil a)
  | cons s ss =>
    have hjoin : segments (join a b) = s :: (ss ++ segments b) := by
      rw [join, segments_join, ha]
      rfl
    rw [head_of_segments ha, head_of_segments hjoin]

/-- A chain of names uses its first segment only. -/
theorem Expr.head_eq_of_uses : (e : Expr) → {spelled : String} → e.dottedName? = some spelled →
    Uses simple [e.outline] → Name.head spelled = simple
  | .name i, spelled, hspelled, ⟨mention, hmention, hhead⟩ => by
    obtain rfl : i.name = spelled := Option.some.inj hspelled
    obtain rfl : mention = i.name := List.mem_singleton.mp hmention
    exact hhead
  | .access ⟨id, target, dot, member, owner⟩, spelled, hspelled, huses => by
    rw [Expr.dottedName?] at hspelled
    obtain ⟨front, hfront, rfl⟩ := Option.map_eq_some_iff.mp hspelled
    rw [Name.head_join]
    exact target.head_eq_of_uses hfront ((uses_congr (mentions_access [] _)).mp huses)

end Uses

/-! ### What is left in use -/

/-- The pass has noted the import down as one that may be unused. -/
def PassState.GivesUp (s : PassState) (i : Import) : Prop :=
  ∃ name ∈ s.removals.toList, isGivenUpBy i name = true

/-- A change of outlines in which an import that was used is still used, or given up, provided that `P`
holds of the nodes before. -/
def Leaves (P : Node → Prop) (i : Import) : Change PassState (List Outline) :=
  fun s os s' ps => (s.GivesUp i → s'.GivesUp i) ∧
    ((∀ n ∈ preorderAll os, P n) → Uses (Name.simple i.name) os →
      Uses (Name.simple i.name) ps ∨ s'.GivesUp i)

section Leaves

variable {P : Node → Prop} {i : Import} {s s₁ s₂ s' : PassState} {os ps : List Outline}

theorem givesUp_congr (h : s'.removals = s.removals) : s'.GivesUp i ↔ s.GivesUp i := by
  rw [PassState.GivesUp, PassState.GivesUp, h]

theorem givesUp_insert {name : String} (h : s'.removals = s.removals.insert name) :
    s'.GivesUp i ↔ isGivenUpBy i name = true ∨ s.GivesUp i := by
  simp only [PassState.GivesUp, h, NameSet.mem_insert, or_and_right, exists_or, exists_eq_left]

theorem Leaves.refl (s : PassState) (os : List Outline) : Leaves P i s os s os :=
  ⟨id, fun _ huses => .inl huses⟩

theorem leaves_same {α : Type} (f : α → List Outline) {x y : α} (h : Change.Same s x s' y) :
    Leaves P i s (f x) s' (f y) := by
  obtain ⟨rfl, rfl⟩ := h
  exact Leaves.refl _ _

theorem forall_preorder_node {n : Node} {below : List Outline}
    (h : ∀ k ∈ preorderAll [.node n below], P k) : P n ∧ ∀ k ∈ preorderAll below, P k := by
  simp only [preorderAll, Outline.preorder, List.append_nil] at h
  exact List.forall_mem_cons.mp h

theorem Leaves.node {n n' : Node} (hn : n.mention? [] = none) (hn' : n'.mention? [] = none)
    (h : Leaves P i s os s' ps) : Leaves P i s [.node n os] s' [.node n' ps] := by
  refine ⟨h.1, fun hP huses => ?_⟩
  rw [uses_node hn] at huses
  rw [uses_node hn']
  exact h.2 (forall_preorder_node hP).2 huses

theorem congruent_leaves : Pass.Congruent (Leaves P i) where
  free _ := Leaves.refl _ _
  append h h' := by
    refine ⟨fun hs => h'.1 (h.1 hs), fun hP huses => ?_⟩
    rw [preorderAll_append, List.forall_mem_append] at hP
    rw [uses_append] at huses ⊢
    rcases huses with huses | huses
    · exact (h.2 hP.1 huses).imp .inl h'.1
    · exact (h'.2 hP.2 huses).imp .inr id
  node hn hn' h := h.node hn.2 hn'.2

theorem leaves_access {a b : FieldAccess}
    (h : Leaves P i s [a.target.outline] s' [b.target.outline]) :
    Leaves P i s [(Expr.access a).outline] s' [(Expr.access b).outline] := by
  obtain ⟨_, _, _, _, _⟩ := a
  obtain ⟨_, _, _, _, _⟩ := b
  exact (h.node rfl rfl).node rfl rfl

/-- What is in front of the members may depend on what holds of the declaration itself. -/
theorem leaves_typeDecl {d e : TypeDecl} (hmono : s.GivesUp i → s₁.GivesUp i)
    (hfront : P (.typeDecl d) → Uses (Name.simple i.name) d.front →
      Uses (Name.simple i.name) e.front ∨ s₁.GivesUp i)
    (hmembers : Leaves P i s₁ (Member.outlineAll d.body.members) s'
      (Member.outlineAll e.body.members)) : Leaves P i s [d.outline] s' [e.outline] := by
  refine ⟨fun hs => hmembers.1 (hmono hs), fun hP huses => ?_⟩
  rw [uses_typeDecl] at huses
  rw [uses_typeDecl]
  obtain ⟨hd, hbelow⟩ : P (.typeDecl d)
      ∧ ∀ n ∈ preorderAll (Member.outlineAll d.body.members), P n := by
    obtain ⟨_, _, _, _, _, _, _, _, _, ⟨_, _, _, _⟩⟩ := d
    obtain ⟨hd, hbelow⟩ := forall_preorder_node hP
    rw [preorderAll_append, List.forall_mem_append] at hbelow
    exact ⟨hd, hbelow.2⟩
  rcases huses with huses | huses
  · exact (hfront hd huses).imp .inl hmembers.1
  · exact (hmembers.2 hbelow huses).imp .inr id

/-- Nothing was given up in between. -/
theorem Leaves.after (hs : s₁.removals = s.removals) (h : Leaves P i s₁ os s' ps) :
    Leaves P i s os s' ps := by
  have hgives : s₁.GivesUp i ↔ s.GivesUp i := givesUp_congr hs
  exact ⟨fun hgiven => h.1 (hgives.mpr hgiven), h.2⟩

end Leaves

/-! ### Superclasses -/

namespace SupertypeChange

variable {c : SupertypeChange} {symbols : SymbolTable}

/-- **What replacing a superclass gives up.** -/
theorem replace_removals {d : TypeDecl} {s s' : PassState} {r : Option TypeDecl}
    (h : c.replace symbols d s = (r, s')) :
    (r = none ∧ s'.removals = s.removals) ∨
    ∃ t, d.superclass? = some t ∧ c.reference? symbols (.typeDecl d) = some ⟨t.name, c.old⟩ ∧
      ((t.isQualified = true ∧ s'.removals = s.removals) ∨
        (t.isQualified = false ∧ s'.removals = s.removals.insert c.old.spelled)) := by
  rw [replace] at h
  split at h
  case isFalse =>
    cases h
    exact .inl ⟨rfl, rfl⟩
  case isTrue hmatch =>
    split at h
    case h_1 =>
      cases h
      exact .inl ⟨rfl, rfl⟩
    case h_2 t ht =>
      rw [TypePattern.matchesSupertype_eq ht] at hmatch
      obtain ⟨hkind, id, lead, after, hextending⟩ := TypeDecl.superclass?_eq_some ht
      rw [respell] at h
      cases hq : t.isQualified with
      | false =>
        rw [hq, if_neg Bool.false_ne_true] at h
        dsimp only at h
        rw [TypeDecl.withSuperclass?_eq hkind hextending] at h
        cases h
        refine .inr ⟨t, ht, ?_, .inr ⟨hq, rfl⟩⟩
        simp [reference?, ht, hmatch, hq]
      | true =>
        rw [hq, if_pos rfl] at h
        cases hfull : c.new.qualifiedIn? symbols with
        | none =>
          rw [hfull] at h
          cases h
          exact .inl ⟨rfl, rfl⟩
        | some full =>
          rw [hfull] at h
          dsimp only at h
          rw [TypeDecl.withSuperclass?_eq hkind hextending] at h
          cases h
          refine .inr ⟨t, ht, ?_, .inl ⟨hq, rfl⟩⟩
          simp [reference?, ht, hmatch, hfull]

/-- Where the reference releases an import, what is in front of the members leaves it in use, or the
hook gives it up. -/
theorem leaves_front {i : Import} {d : TypeDecl} {s s₁ : PassState} {r : Option TypeDecl}
    (h : c.replace symbols d s = (r, s₁))
    (hreleases : ReleasedAt (c.reference? symbols) i (.typeDecl d))
    (huses : Uses (Name.simple i.name) d.front) :
    Uses (Name.simple i.name) (r.getD d).front ∨ s₁.GivesUp i := by
  rcases replace_cases h with ⟨rfl, _⟩ | ⟨id, lead, t, after, name, hkind, hextending, _, rfl, _⟩
  · exact .inl huses
  · rcases replace_removals h with ⟨hnone, _⟩ | ⟨u, hu, href, hs⟩
    · cases hnone
    · obtain rfl : t = u := by
        rw [TypeDecl.superclass?, hkind, hextending] at hu
        exact Option.some.inj hu
      rw [TypeDecl.front, hextending, uses_header, uses_typeName, or_assoc] at huses
      rcases huses with hhead | huses
      · obtain ⟨hplain, hgiven⟩ := hreleases _ href hhead.symm
        rcases hs with ⟨hq, _⟩ | ⟨_, hs⟩
        · exact absurd (hplain.symm.trans hq) Bool.false_ne_true
        · exact .inr ((givesUp_insert hs).mpr (.inl hgiven))
      · refine .inl ?_
        rw [Option.getD_some, TypeDecl.front, uses_header, uses_typeName, or_assoc]
        exact .inr huses

theorem givesUp_replace {i : Import} {d : TypeDecl} {s s₁ : PassState} {r : Option TypeDecl}
    (h : c.replace symbols d s = (r, s₁)) (hs : s.GivesUp i) : s₁.GivesUp i := by
  rcases replace_removals h with ⟨_, hsame⟩ | ⟨_, _, _, ⟨_, hsame⟩ | ⟨_, hmore⟩⟩
  · exact (givesUp_congr hsame).mpr hs
  · exact (givesUp_congr hsame).mpr hs
  · exact (givesUp_insert hmore).mpr (.inr hs)

theorem respects_leaves (c : SupertypeChange) (symbols : SymbolTable) (i : Import) :
    Pass.Respects (c.hooks symbols) Change.Same Change.Same fun s d s' e =>
      Leaves (ReleasedAt (c.reference? symbols) i) i s [d.outline] s' [e.outline] := by
  refine respects_of_decl ?_
  intro s s₁ s₂ d r members hask hmembers
  refine leaves_typeDecl (givesUp_replace hask) (leaves_front hask) ?_
  exact congruent_leaves.members (leaves_same fun x => [Expr.outline x])
    (leaves_same fun b => [Block.outline b]) (fun hd => hd) hmembers

end SupertypeChange

/-! ### Constants -/

/-- A chain of names that is spelled without dots is a name. -/
theorem Expr.isName_of_plain {e : Expr} {spelled : String} (h : e.dottedName? = some spelled)
    (hplain : Name.isQualified spelled = false) : e.isName = true := by
  cases e with
  | name _ => rfl
  | access a =>
    obtain ⟨id, target, dot, member, owner⟩ := a
    rw [dottedName?] at h
    obtain ⟨front, _, rfl⟩ := Option.map_eq_some_iff.mp h
    rw [Name.isQualified_eq_false, Name.Dotless, Name.join] at hplain
    simp at hplain
  | _ => cases h

namespace ConstantChange

theorem retarget_removals (c : ConstantChange) (symbols : SymbolTable) (a : FieldAccess)
    (s : PassState) : (c.retarget symbols a s).2.removals
      = if c.ownerChanges && a.target.isName then s.removals.insert c.oldOwner.spelled
        else s.removals := by
  rw [retarget]
  cases c.ownerChanges with
  | false => rfl
  | true =>
    cases a.target with
    | name ident => rfl
    | _ => cases c.newOwner.qualifiedIn? symbols <;> rfl

/-- **What replacing a constant gives up.** -/
theorem replace_removals (c : ConstantChange) (symbols : SymbolTable) (a : FieldAccess)
    (s : PassState) : (c.replace symbols a s).2.removals
      = if a.target.dottedName?.any Name.isTypeQualifier && (c.ownerChanges && a.target.isName) then
          s.removals.insert c.oldOwner.spelled
        else s.removals := by
  rw [replace]
  cases a.target.dottedName?.any Name.isTypeQualifier with
  | false => rfl
  | true =>
    rw [if_pos rfl, Bool.true_and, ← retarget_removals c symbols a s]
    rcases c.retarget symbols a s with ⟨_ | target, s₁⟩ <;> rfl

end ConstantChange

namespace ConstantTable

variable {t : ConstantTable} {symbols : SymbolTable} {a : FieldAccess} {i : Import}
  {s s₁ s₂ : PassState}

theorem removals_of_find? {c : ConstantChange} {r : Option Expr} (hc : t.find? symbols a = some c)
    (h : t.replace symbols a s = (r, s₁)) : s₁.removals
      = if a.target.dottedName?.any Name.isTypeQualifier && (c.ownerChanges && a.target.isName) then
          s.removals.insert c.oldOwner.spelled
        else s.removals := by
  have hhook : c.replace symbols a s = (r, s₁) := by
    rw [replace, hc] at h
    exact h
  rw [← c.replace_removals symbols a s, hhook]

theorem removals_of_spares {r : Option Expr} (h : t.replace symbols a s = (r, s₁))
    (hspares : t.Spares symbols a) : s₁.removals = s.removals := by
  cases hc : t.find? symbols a with
  | none =>
    rw [replace, hc] at h
    cases h
    rfl
  | some c =>
    rw [removals_of_find? hc h]
    rcases hspares c hc with hspelled | ⟨_, hname, _⟩
    · rw [hspelled]
      rfl
    · rw [hname, Bool.and_false, Bool.and_false]
      rfl

theorem reference?_eq {c : ConstantChange} {spelled : String} (hc : t.find? symbols a = some c)
    (hspelled : a.target.dottedName? = some spelled) (howner : c.ownerChanges = true)
    (htype : Name.isTypeQualifier spelled = true)
    (hwritten : a.target.isName = true ∨ (c.newOwner.qualifiedIn? symbols).isSome = true) :
    t.reference? symbols (.access a) = some ⟨spelled, c.oldOwner⟩ := by
  have htest : (a.target.isName || (c.newOwner.qualifiedIn? symbols).isSome) = true :=
    Bool.or_eq_true_iff.mpr hwritten
  simp only [reference?, hc, hspelled, Option.bind_eq_bind, Option.bind_some, howner, htype, htest,
    Bool.and_self, if_true]
  rfl

/-- An access whose owner is rewritten: an import that the access uses is given up where the reference
releases it. -/
theorem leaves_moved {c : ConstantChange} {spelled : String}
    (href : t.reference? symbols (.access a) = some ⟨spelled, c.oldOwner⟩)
    (hspelled : a.target.dottedName? = some spelled)
    (hs : s₁.removals
      = if a.target.isName then s.removals.insert c.oldOwner.spelled else s.removals)
    (hmono : s₁.GivesUp i → s₂.GivesUp i) (ps : List Outline) :
    Leaves (ReleasedAt (t.reference? symbols) i) i s
      [(Expr.access a).outline] s₂ ps := by
  refine ⟨fun hgiven => hmono ?_, fun hP huses => .inr (hmono ?_)⟩
  · cases hname : a.target.isName with
    | true =>
      rw [hname, if_pos rfl] at hs
      exact (givesUp_insert hs).mpr (.inr hgiven)
    | false =>
      rw [hname, if_neg Bool.false_ne_true] at hs
      exact (givesUp_congr hs).mpr hgiven
  · have hreleases : ReleasedAt (t.reference? symbols) i (.access a) := by
      obtain ⟨_, _, _, _, _⟩ := a
      exact (forall_preorder_node (forall_preorder_node hP).2).1
    have hhead := a.target.head_eq_of_uses hspelled ((uses_congr (mentions_access [] a)).mp huses)
    obtain ⟨hplain, hgiven⟩ := hreleases _ href hhead.symm
    rw [Expr.isName_of_plain hspelled hplain, if_pos rfl] at hs
    exact (givesUp_insert hs).mpr (.inl hgiven)

/-- Where the reference releases an import, the access leaves it in use, or the hook gives it up. -/
theorem leaves_expr {x y : Expr} {r : Option Expr}
    (hask : Pass.askExpr (t.hooks symbols) x s = some (r, s₁))
    (hbelow : Change.Below (fun s x s' y =>
      Leaves (ReleasedAt (t.reference? symbols) i) i s [x.outline] s' [y.outline])
      s₁ (r.getD x) s₂ y) :
    Leaves (ReleasedAt (t.reference? symbols) i) i s [x.outline] s₂
      [y.outline] := by
  cases x with
  | access a =>
    have hhook : t.replace symbols a s = (r, s₁) := Option.some.inj hask
    rcases replace_cases hhook with
      ⟨rfl, hspares, _⟩ | ⟨c, spelled, target, owner, hc, hspelled, htype, rfl, _, hcase⟩
    · obtain ⟨target, htarget, rfl⟩ := hbelow.access_inv
      exact (leaves_access htarget).after (removals_of_spares hhook hspares)
    · obtain ⟨target', htarget, rfl⟩ := hbelow.access_inv
      have hremovals := removals_of_find? hc hhook
      rw [hspelled, Option.any_some, htype, Bool.true_and] at hremovals
      cases howner : c.ownerChanges with
      | false =>
        rcases hcase with ⟨_, rfl, _⟩ | ⟨howner', _⟩ | ⟨howner', _⟩
        · rw [howner] at hremovals
          exact (leaves_access htarget).after hremovals
        · cases howner.symm.trans howner'
        · cases howner.symm.trans howner'
      | true =>
        rw [howner, Bool.true_and] at hremovals
        refine leaves_moved ?_ hspelled hremovals htarget.1 _
        rcases hcase with ⟨howner', _⟩ | ⟨_, ident, hident, _⟩ | ⟨_, _, full, hfull, _⟩
        · cases howner.symm.trans howner'
        · exact reference?_eq hc hspelled howner htype (.inl (by rw [hident]; rfl))
        · exact reference?_eq hc hspelled howner htype (.inr (by rw [hfull]; rfl))
  | _ =>
    obtain ⟨rfl, rfl⟩ := Pass.pure_eq_some.mp hask
    exact congruent_leaves.below (fun h => h) hbelow nofun

end ConstantTable

/-! ### Passes -/

/-- **A pass all of whose references release an import leaves it in use or gives it up.** -/
theorem Recipe.pass_releases {r : Recipe}
    {pass : SymbolTable → Module → Pass PassState (Option Module)} (hr : r.pass? = some pass)
    {symbols : SymbolTable} {m : Module} {s s' : PassState} {changed : Option Module}
    (hrun : pass symbols m s = some (changed, s')) {i : Import}
    (hreleases : ∀ n ∈ preorderAll (m.types.map TypeDecl.outline),
      ReleasedAt (r.reference? symbols) i n)
    (huses : Uses (Name.simple i.name) (m.types.map TypeDecl.outline)) :
    Uses (Name.simple i.name) ((changed.getD m).types.map TypeDecl.outline) ∨ s'.GivesUp i := by
  have hconstant {t : ConstantTable} (hrun : t.pass symbols m s = some (changed, s')) :
      Leaves (ReleasedAt (t.reference? symbols) i) i s
        (m.types.map TypeDecl.outline) s' ((changed.getD m).types.map TypeDecl.outline) :=
    congruent_leaves.transform (fun h => h) (fun _ _ => rfl) (fun _ _ => rfl)
      ConstantTable.leaves_expr hrun
  cases r with
  | changeSupertype c =>
    cases hr
    obtain ⟨types, heach, hout⟩ := (c.respects_leaves symbols i).transform_each _ hrun
    rw [hout]
    exact (congruent_leaves.types heach).2 hreleases huses
  | changeConstant t =>
    cases hr
    exact (hconstant hrun).2 hreleases huses
  | changeConstants t =>
    cases hr
    exact (hconstant hrun).2 hreleases huses
  | pipeline name recipes => cases hr

end Migration
