import Migration.Proofs.Rule.Termination
import Migration.Proofs.Scope.Binding
import Migration.Proofs.Traversal.Carrying

/-!
# Where moved constants settle

A pass goes on inside what it puts in, so each access that it leaves behind was left alone or written by
an entry, and the spelling of its target changes only by names that entries write. In a table whose
entries stay apart (`ConstantTable.Apart`) this leaves three kinds of accesses (`Settled`): no entry
matches them wherever they stand, or the table spares them where they stand, or an entry wrote them
behind a simple name that it asked an import for.

Main result: every access that a pass leaves behind is settled (`pass_settles`).
-/

namespace Migration

open Outline (Accesses Ownerless collect mentions accesses_append accesses_node)

/-- An expression that is no access spells what it spelled, whatever changes below it. -/
theorem Change.Below.keeps_name {σ : Type} {E : Change σ Expr} {s s' : σ} {x y : Expr}
    (h : Change.Below E s x s' y) (hx : ∀ a, x ≠ .access a) :
    y.isName = x.isName ∧ (∀ i, x = .name i → y = x) ∧ y.dottedName? = x.dottedName? := by
  cases h with
  | name => exact ⟨rfl, fun _ _ => rfl, rfl⟩
  | access _ => exact absurd rfl (hx _)
  | _ => exact ⟨rfl, nofun, rfl⟩

/-! ### Patterns -/

theorem Name.simple_mem_segments (name : String) : Name.simple name ∈ Name.segments name := by
  rcases List.eq_nil_or_concat (Name.segments name) with hnil | ⟨ss, last, hall⟩
  · exact absurd hnil (Name.segments_ne_nil name)
  · rw [List.concat_eq_append] at hall
    rw [Name.simple_of_segments hall, hall]
    exact List.mem_append_right _ List.mem_cons_self

namespace TypePattern

variable {p q : TypePattern} {symbols : SymbolTable} {qualifier : String}

theorem dotless_simpleName (p : TypePattern) : Name.Dotless p.simpleName := Name.dotless_simple _

theorem fullName?_eq_some {full : String} :
    p.fullName? = some full ↔ Name.isQualified p.spelled = true ∧ p.spelled = full := by
  rw [fullName?]
  split
  · next h => simp [h]
  · next h => simp [h]

theorem overlaps_iff : p.overlaps q = true ↔ p.simpleName = q.simpleName ∧
    ∀ a b, p.fullName? = some a → q.fullName? = some b → a = b := by
  rw [overlaps, Bool.and_eq_true, beq_iff_eq]
  refine and_congr_right fun _ => ?_
  cases p.fullName? <;> cases q.fullName? <;> simp

/-- **What a pattern matches**: its full name, or its simple name unless this means another type. -/
theorem matchesQualifier_iff : p.matchesQualifier symbols qualifier = true ↔
    p.fullName? = some qualifier ∨ qualifier = p.simpleName ∧
      ∀ a b, p.fullName? = some a → (symbols.resolve qualifier).type? = some b → a = b := by
  rw [matchesQualifier]
  split
  · next hq =>
    rw [beq_iff_eq, or_iff_left]
    rintro ⟨rfl, _⟩
    rw [Name.isQualified_eq_false.mpr p.dotless_simpleName] at hq
    cases hq
  · next hq =>
    have hnot : p.fullName? ≠ some qualifier := by
      intro h
      obtain ⟨hqualified, rfl⟩ := fullName?_eq_some.mp h
      exact hq hqualified
    rw [or_iff_right hnot, Bool.and_eq_true, beq_iff_eq]
    refine and_congr_right fun _ => ?_
    cases p.fullName? <;> cases (symbols.resolve qualifier).type? <;> simp

/-- What a dotted qualifier matches does not depend on the scope. -/
theorem matchesQualifier_congr {after : SymbolTable}
    (h : Name.isQualified qualifier = false → after.resolve qualifier = symbols.resolve qualifier) :
    p.matchesQualifier after qualifier = p.matchesQualifier symbols qualifier := by
  rw [matchesQualifier, matchesQualifier]
  split
  · rfl
  · next hq => rw [h (Bool.eq_false_iff.mpr hq)]

theorem simple_of_matchesQualifier (h : p.matchesQualifier symbols qualifier = true) :
    Name.simple qualifier = p.simpleName := by
  rcases matchesQualifier_iff.mp h with hfull | ⟨rfl, _⟩
  · rw [← (fullName?_eq_some.mp hfull).2]
    rfl
  · exact Name.simple_of_dotless p.dotless_simpleName

/-- Every segment of a matched qualifier is one of the pattern. -/
theorem segments_of_matchesQualifier (h : p.matchesQualifier symbols qualifier = true) :
    Name.segments qualifier ⊆ Name.segments p.spelled := by
  rcases matchesQualifier_iff.mp h with hfull | ⟨rfl, _⟩
  · rw [(fullName?_eq_some.mp hfull).2]
    exact List.Subset.refl _
  · rw [Name.segments_of_dotless p.dotless_simpleName]
    exact List.cons_subset.mpr ⟨Name.simple_mem_segments _, List.nil_subset _⟩

/-- A full name that a pattern has stands for the pattern itself. -/
theorem eq_of_qualify {a full : String} (ha : p.fullName? = some a)
    (h : symbols.qualify p.spelled = .type full) : a = full := by
  obtain ⟨hqualified, rfl⟩ := fullName?_eq_some.mp ha
  rw [SymbolTable.qualify, if_pos hqualified] at h
  exact Resolved.type.inj h

/-- A pattern whose full name is matched may stand for the same type as the matching one. -/
theorem overlaps_of_full {after : SymbolTable} {full : String}
    (hp : symbols.qualify p.spelled = .type full) (hsimple : Name.simple full = p.simpleName)
    (hq : q.matchesQualifier after full = true) : p.overlaps q = true := by
  refine overlaps_iff.mpr ⟨hsimple.symm.trans (simple_of_matchesQualifier hq), fun a b ha hb => ?_⟩
  obtain rfl := eq_of_qualify ha hp
  rcases matchesQualifier_iff.mp hq with hfull | ⟨hdotless, _⟩
  · rw [hb] at hfull
    exact (Option.some.inj hfull).symm
  · obtain ⟨hqualified, rfl⟩ := fullName?_eq_some.mp ha
    rw [hdotless, Name.isQualified_eq_false.mpr q.dotless_simpleName] at hqualified
    cases hqualified

/-- A pattern whose simple name is matched where it means the type that the pattern stands for may
stand for the same type as the matching one. -/
theorem overlaps_of_simple {after : SymbolTable} {full : String}
    (hp : symbols.qualify p.spelled = .type full)
    (hafter : after.resolve p.simpleName = .type full)
    (hq : q.matchesQualifier after p.simpleName = true) : p.overlaps q = true := by
  refine overlaps_iff.mpr ⟨?_, fun a b ha hb => ?_⟩
  · rw [← simple_of_matchesQualifier hq, Name.simple_of_dotless p.dotless_simpleName]
  · rcases matchesQualifier_iff.mp hq with hfull | ⟨_, hmeans⟩
    · obtain ⟨hqualified, hspelled⟩ := fullName?_eq_some.mp hfull
      rw [hspelled, Name.isQualified_eq_false.mpr p.dotless_simpleName] at hqualified
      cases hqualified
    · rw [eq_of_qualify ha hp]
      refine (hmeans b full hb ?_).symm
      rw [hafter]
      rfl

end TypePattern

/-! ### Tables whose entries stay apart -/

/-- What one entry writes is not moved on by another one. -/
structure ConstantChange.ApartFrom (c d : ConstantChange) : Prop where
  /-- No constant moves to a type that may be an old owner. -/
  owner : c.ownerChanges = true → c.newOwner.overlaps d.oldOwner = false
  /-- A constant that stays with its owner is not called like one that moves away from a type of the
  same simple name. -/
  member : c.ownerChanges = false → c.newMember = d.oldMember →
    c.newOwner.simpleName ≠ d.oldOwner.simpleName
  /-- No new constant is a part of the name of an old owner. -/
  segment : c.newMember ∉ Name.segments d.oldOwner.spelled
  /-- New owners that may be the same type are spelled alike. -/
  spelling : c.ownerChanges = true → d.ownerChanges = true →
    c.newOwner.overlaps d.newOwner = true → c.newOwner = d.newOwner

instance (c d : ConstantChange) : Decidable (c.ApartFrom d) :=
  decidable_of_iff
    ((c.ownerChanges = true → c.newOwner.overlaps d.oldOwner = false) ∧
      (c.ownerChanges = false → c.newMember = d.oldMember →
        c.newOwner.simpleName ≠ d.oldOwner.simpleName) ∧
      c.newMember ∉ Name.segments d.oldOwner.spelled ∧
      (c.ownerChanges = true → d.ownerChanges = true →
        c.newOwner.overlaps d.newOwner = true → c.newOwner = d.newOwner))
    ⟨fun ⟨h₁, h₂, h₃, h₄⟩ => ⟨h₁, h₂, h₃, h₄⟩, fun ⟨h₁, h₂, h₃, h₄⟩ => ⟨h₁, h₂, h₃, h₄⟩⟩

namespace ConstantTable

/-- The entries of the table stay apart, each from itself too. -/
def Apart (t : ConstantTable) : Prop := ∀ c ∈ t.entries, ∀ d ∈ t.entries, c.ApartFrom d

instance (t : ConstantTable) : Decidable t.Apart :=
  inferInstanceAs (Decidable (∀ c ∈ t.entries, ∀ d ∈ t.entries, c.ApartFrom d))

/-- The expression spells a name with a new constant in it. -/
def Foreign (t : ConstantTable) (e : Expr) : Prop :=
  ∃ c ∈ t.entries, ∃ name, e.dottedName? = some name ∧ c.newMember ∈ Name.segments name

/-- The access is one that a pass leaves behind: no entry matches it wherever it stands, or the table
spares it, or an entry wrote it behind a simple name and asked for the type of that name. -/
inductive Settled (t : ConstantTable) (symbols : SymbolTable) (s : PassState) (a : FieldAccess) :
    Prop
  | unmatched (none : ∀ after, t.find? after a = none)
  | spared (spares : t.Spares symbols a)
  | written {c : ConstantChange} {i : Ident} (mem : c ∈ t.entries) (changes : c.ownerChanges = true)
      (member : a.name.name = c.newMember) (target : a.target = .name i)
      (simple : i.name = c.newOwner.simpleName) (asked : c.newOwner.spelled ∈ s.additions.toList)

/-- A pass goes on: what was asked for still is, and what else is asked for are new owners. -/
structure Moves (t : ConstantTable) (s s' : PassState) : Prop where
  kept : ∀ new ∈ s.additions.toList, new ∈ s'.additions.toList
  asked : ∀ new ∈ s'.additions.toList, new ∈ s.additions.toList ∨
    ∃ c ∈ t.entries, c.ownerChanges = true ∧ c.newOwner.spelled = new

variable {t : ConstantTable} {symbols : SymbolTable}

theorem moves_of_eq {s s' : PassState} (h : s'.additions = s.additions) : t.Moves s s' := by
  refine ⟨fun new hnew => ?_, fun new hnew => .inl ?_⟩
  · rw [h]
    exact hnew
  · rw [← h]
    exact hnew

theorem moves_insert {s s' : PassState} {c : ConstantChange} (hc : c ∈ t.entries)
    (hchanges : c.ownerChanges = true)
    (h : s'.additions = s.additions.insert c.newOwner.spelled) : t.Moves s s' := by
  refine ⟨fun new hnew => ?_, fun new hnew => ?_⟩
  · rw [h, NameSet.mem_insert]
    exact .inr hnew
  · rw [h, NameSet.mem_insert] at hnew
    rcases hnew with rfl | hnew
    · exact .inr ⟨c, hc, hchanges, rfl⟩
    · exact .inl hnew

theorem Moves.trans {s s₁ s₂ : PassState} (h : t.Moves s s₁) (h' : t.Moves s₁ s₂) :
    t.Moves s s₂ := by
  refine ⟨fun new hnew => h'.kept new (h.kept new hnew), fun new hnew => ?_⟩
  rcases h'.asked new hnew with hnew | hnew
  · exact h.asked new hnew
  · exact .inr hnew

theorem Settled.mono {s s' : PassState} {a : FieldAccess} (h : t.Settled symbols s a)
    (hs : t.Moves s s') : t.Settled symbols s' a := by
  cases h with
  | unmatched none => exact .unmatched none
  | spared spares => exact .spared spares
  | written mem changes member target simple asked =>
    exact .written mem changes member target simple (hs.kept _ asked)

/-! ### Accesses that no entry matches -/

theorem matchesQualifier_of_find? {a : FieldAccess} (howner : a.owner = none) {after : SymbolTable}
    {d : ConstantChange} (h : t.find? after a = some d) {spelled : String}
    (hspelled : a.target.dottedName? = some spelled) :
    d.oldOwner.matchesQualifier after spelled = true := by
  obtain ⟨_, spelled', hspelled', hmatch⟩ :=
    (ConstantChange.isMatch_iff howner).mp (isMatch_of_find? h)
  rw [hspelled] at hspelled'
  cases hspelled'
  exact hmatch

section Unmatched

variable (hapart : t.Apart)

include hapart

/-- No entry matches behind a new constant. -/
theorem unmatched_of_foreign {a : FieldAccess} (howner : a.owner = none) (h : t.Foreign a.target)
    (after : SymbolTable) : t.find? after a = none := by
  obtain ⟨c, hc, name, hname, hsegment⟩ := h
  refine Option.eq_none_iff_forall_ne_some.mpr fun d hd => ?_
  have hmatch := matchesQualifier_of_find? howner hd hname
  exact (hapart c hc d (mem_of_find? hd)).segment
    (TypePattern.segments_of_matchesQualifier hmatch hsegment)

/-- No entry matches a constant that was given another name only. -/
theorem unmatched_of_renamed {a b : FieldAccess} {c : ConstantChange} (ha : a.owner = none)
    (hb : b.owner = none) (hc : t.find? symbols a = some c) (hchanges : c.ownerChanges = false)
    (hmember : b.name.name = c.newMember)
    (hdotted : b.target.dottedName? = a.target.dottedName?) (after : SymbolTable) :
    t.find? after b = none := by
  refine Option.eq_none_iff_forall_ne_some.mpr fun d hd => ?_
  obtain ⟨_, spelled, hspelled, hold⟩ :=
    (ConstantChange.isMatch_iff ha).mp (isMatch_of_find? hc)
  have hnew := matchesQualifier_of_find? hb hd (hdotted.trans hspelled)
  have hsame : c.oldOwner = c.newOwner := by simpa [ConstantChange.ownerChanges] using hchanges
  refine (hapart c (mem_of_find? hc) d (mem_of_find? hd)).member hchanges
    (hmember.symm.trans (member_of_find? hd)) ?_
  rw [← hsame, ← TypePattern.simple_of_matchesQualifier hold,
    TypePattern.simple_of_matchesQualifier hnew]

/-- No entry matches behind the full name of a new owner. -/
theorem unmatched_of_full {b : FieldAccess} {c : ConstantChange} (hb : b.owner = none)
    (hc : c ∈ t.entries) (hchanges : c.ownerChanges = true) {full : String}
    (hfull : symbols.qualify c.newOwner.spelled = .type full)
    (hsimple : Name.simple full = c.newOwner.simpleName)
    (hdotted : b.target.dottedName? = some full) (after : SymbolTable) :
    t.find? after b = none := by
  refine Option.eq_none_iff_forall_ne_some.mpr fun d hd => ?_
  have hapart := (hapart c hc d (mem_of_find? hd)).owner hchanges
  rw [TypePattern.overlaps_of_full hfull hsimple (matchesQualifier_of_find? hb hd hdotted)] at hapart
  cases hapart

end Unmatched

/-! ### Expressions -/

/-- The name in front of every access that is behind a simple name stands in the outlines. -/
def Closed (os : List Outline) : Prop :=
  Accesses (fun a => ∀ i, a.target = .name i → i.name ∈ mentions [] os) os

/-- The accesses of the outlines are settled. -/
def SettledIn (t : ConstantTable) (symbols : SymbolTable) (s : PassState) (os : List Outline) : Prop :=
  Accesses (fun a => a.owner = none ∧ t.Settled symbols s a) os ∧ Closed os

theorem carrier_settled : Pass.Carrier t.Moves (t.SettledIn symbols) where
  refl _ := moves_of_eq rfl
  trans := Moves.trans
  mono hs h := ⟨fun a ha => ⟨(h.1 a ha).1, (h.1 a ha).2.mono hs⟩, h.2⟩
  free h := ⟨Outline.accesses_of_collect h, Outline.accesses_of_collect h⟩
  append {_ os ps} h h' := by
    refine ⟨accesses_append.mpr ⟨h.1, h'.1⟩, accesses_append.mpr ⟨?_, ?_⟩⟩
    · intro a ha i hi
      rw [Outline.mentions_append]
      exact List.mem_append_left _ (h.2 a ha i hi)
    · intro a ha i hi
      rw [Outline.mentions_append]
      exact List.mem_append_right _ (h'.2 a ha i hi)
  node {_ n below} hn h := by
    refine ⟨accesses_node.mpr ⟨?_, h.1⟩, accesses_node.mpr ⟨?_, ?_⟩⟩
    · rw [hn]
      exact nofun
    · rw [hn]
      exact nofun
    · intro a ha i hi
      rw [Outline.mentions_node]
      exact List.mem_append_right _ (h.2 a ha i hi)

theorem settledIn_access {s : PassState} {a : FieldAccess}
    (htarget : t.SettledIn symbols s [a.target.outline]) (howner : a.owner = none)
    (hsettled : t.Settled symbols s a) : t.SettledIn symbols s [(Expr.access a).outline] := by
  refine ⟨Outline.accesses_access.mpr ⟨⟨howner, hsettled⟩, htarget.1⟩, ?_⟩
  rw [Closed, mentions_access]
  refine Outline.accesses_access.mpr ⟨fun i hi => ?_, htarget.2⟩
  rw [hi]
  exact List.mem_cons_self

/-- What a pass makes of an expression: its accesses are settled, and it spells the same name or one
with a new constant in it. -/
def settlesExpr (t : ConstantTable) (symbols : SymbolTable) : Change PassState Expr :=
  fun s x s' y => Ownerless [x.outline] →
    (t.Moves s s' ∧ t.SettledIn symbols s' [y.outline]) ∧ y.isName = x.isName ∧
      (∀ i, x = .name i → y = x) ∧ (y.dottedName? = x.dottedName? ∨ t.Foreign y)

theorem dottedName?_access (a : FieldAccess) :
    (Expr.access a).dottedName? = a.target.dottedName?.map (Name.join · a.name.name) := by
  obtain ⟨id, target, dot, name, owner⟩ := a
  rw [Expr.dottedName?]

/-- A name without dots is spelled by a name only. -/
theorem name_of_dottedName? {e : Expr} {name : String} (h : e.dottedName? = some name)
    (hdotless : Name.Dotless name) : ∃ i, e = .name i ∧ i.name = name := by
  cases e with
  | name i => exact ⟨i, rfl, Option.some.inj h⟩
  | access a =>
    rw [dottedName?_access] at h
    obtain ⟨front, _, rfl⟩ := Option.map_eq_some_iff.mp h
    refine absurd ?_ hdotless
    rw [Name.join, String.toList_append, String.toList_append]
    exact List.mem_append_left _ (List.mem_append_right _ List.mem_cons_self)
  | _ => cases h

theorem foreign_of_target {a : FieldAccess} (h : t.Foreign a.target) : t.Foreign (.access a) := by
  obtain ⟨c, hc, name, hname, hsegment⟩ := h
  refine ⟨c, hc, Name.join name a.name.name, ?_, ?_⟩
  · rw [dottedName?_access, hname]
    rfl
  · rw [Name.join, Name.segments_join]
    exact List.mem_append_left _ hsegment

theorem foreign_of_member {a : FieldAccess} {c : ConstantChange} (hc : c ∈ t.entries)
    (hmember : a.name.name = c.newMember) (hdotless : Name.Dotless c.newMember) {name : String}
    (hname : a.target.dottedName? = some name) : t.Foreign (.access a) := by
  refine ⟨c, hc, Name.join name a.name.name, ?_, ?_⟩
  · rw [dottedName?_access, hname]
    rfl
  · rw [Name.join, Name.segments_join, hmember, Name.segments_of_dotless hdotless]
    exact List.mem_append_right _ List.mem_cons_self

theorem Spares.congr {a b : FieldAccess} (h : t.Spares symbols a) (hname : b.name.name = a.name.name)
    (howner : b.owner = a.owner) (hdotted : b.target.dottedName? = a.target.dottedName?)
    (hkind : b.target.isName = a.target.isName) : t.Spares symbols b := by
  intro c hc
  rw [hdotted, hkind]
  exact h c ((find?_congr hname howner hdotted).symm.trans hc)

section Pass

variable (hapart : t.Apart) (hmembers : ∀ c ∈ t.entries, Name.Dotless c.newMember)
  (hsimple : ∀ {name full}, symbols.qualify name = .type full → Name.simple full = Name.simple name)

include hapart hmembers hsimple

/-- **What a pass makes of an access.** -/
theorem settles_access {a : FieldAccess} {s s₁ s₂ : PassState} {r : Option Expr} {y : Expr}
    (hask : t.replace symbols a s = (r, s₁))
    (hbelow : Change.Below (t.settlesExpr symbols) s₁ (r.getD (.access a)) s₂ y) :
    t.settlesExpr symbols s (.access a) s₂ y := by
  intro hpre
  obtain ⟨howner, htarget⟩ := Outline.accesses_access.mp hpre
  rcases replace_cases hask with
    ⟨rfl, hspares, hs⟩ | ⟨c, spelled, target, owner, hc, hspelled, _, rfl, hnone, hcase⟩
  · obtain ⟨target, hinner, rfl⟩ := hbelow.access_inv
    obtain ⟨⟨hmoves, hin⟩, hkind, _, hdotted⟩ := hinner htarget
    have hmoves := (moves_of_eq hs).trans hmoves
    rcases hdotted with hsame | hforeign
    · refine ⟨⟨hmoves, settledIn_access hin howner (.spared ?_)⟩, rfl, nofun, .inl ?_⟩
      · exact hspares.congr rfl rfl hsame hkind
      · rw [dottedName?_access, dottedName?_access, hsame]
    · refine ⟨⟨hmoves, settledIn_access hin howner (.unmatched ?_)⟩, rfl, nofun, .inr ?_⟩
      · exact unmatched_of_foreign hapart howner hforeign
      · exact foreign_of_target hforeign
  · obtain rfl : owner = none := hnone howner
    have hmem := mem_of_find? hc
    obtain ⟨target', hinner, rfl⟩ := hbelow.access_inv
    obtain ⟨name, hname, hmoves, hin, hsettled⟩ : ∃ name, target'.dottedName? = some name ∧
        t.Moves s s₂ ∧ t.SettledIn symbols s₂ [target'.outline] ∧
        t.Settled symbols s₂ ⟨a.id, target', a.dot, a.name.withName c.newMember, none⟩ := by
      rcases hcase with ⟨hchanges, rfl, hs⟩ | ⟨hchanges, i, hi, rfl, hs⟩ |
        ⟨hchanges, _, full, hfull, rfl, hs⟩
      · obtain ⟨⟨hmoves, hin⟩, _, _, hsame | hforeign⟩ := hinner htarget
        · exact ⟨spelled, hsame.trans hspelled, (moves_of_eq hs).trans hmoves, hin,
            .unmatched (unmatched_of_renamed hapart howner rfl hc hchanges rfl hsame)⟩
        · obtain ⟨_, _, name, hname, _⟩ := id hforeign
          exact ⟨name, hname, (moves_of_eq hs).trans hmoves, hin,
            .unmatched (unmatched_of_foreign hapart rfl hforeign)⟩
      · obtain ⟨⟨hmoves, hin⟩, _, hname, _⟩ := hinner (Outline.accesses_of_collect rfl)
        cases hname _ rfl
        refine ⟨_, rfl, (moves_insert hmem hchanges hs).trans hmoves, hin,
          .written hmem hchanges rfl rfl rfl (hmoves.kept _ ?_)⟩
        rw [hs, NameSet.mem_insert]
        exact .inl rfl
      · obtain ⟨⟨hmoves, hin⟩, _, _, hsame | hforeign⟩ := hinner (chain_nameChain _ _ full).ownerless
        · have hspells := hsame.trans (dottedName?_nameChain _ _ full)
          have hfull := TypePattern.qualifiedIn?_eq_some hfull
          exact ⟨full, hspells, (moves_of_eq hs).trans hmoves, hin,
            .unmatched (unmatched_of_full hapart rfl hmem hchanges hfull (hsimple hfull) hspells)⟩
        · obtain ⟨_, _, name, hname, _⟩ := id hforeign
          exact ⟨name, hname, (moves_of_eq hs).trans hmoves, hin,
            .unmatched (unmatched_of_foreign hapart rfl hforeign)⟩
    refine ⟨⟨hmoves, settledIn_access hin rfl hsettled⟩, rfl, nofun, .inr ?_⟩
    exact foreign_of_member hmem rfl (hmembers c hmem) hname

/-- **Every access that a pass leaves behind is settled**, and it asks for new owners only. -/
theorem pass_settles {m : Module} {s s' : PassState} {r : Option Module}
    (hrun : t.pass symbols m s = some (r, s')) (hm : Ownerless (m.types.map TypeDecl.outline)) :
    t.Moves s s' ∧ t.SettledIn symbols s' ((r.getD m).types.map TypeDecl.outline) := by
  refine carrier_settled.transform_carried (E := t.settlesExpr symbols) (fun h hpre => (h hpre).1)
    (fun _ _ => rfl) (fun _ _ => rfl) ?_ hrun hm
  intro s s₁ s₂ x y r hask hbelow
  cases x with
  | access a => exact settles_access hapart hmembers hsimple (Option.some.inj hask) hbelow
  | _ =>
    obtain ⟨rfl, rfl⟩ := Pass.pure_eq_some.mp hask
    obtain ⟨hkind, hname, hdotted⟩ := hbelow.keeps_name nofun
    exact fun hpre => ⟨carrier_settled.congruent.below (fun h hpre => (h hpre).1) hbelow nofun hpre,
      hkind, hname, .inl hdotted⟩

end Pass

end ConstantTable

end Migration
