import Migration.Proofs.Grammar.RoundTrip
import Migration.Proofs.Rule.Accepted

/-!
# The order of the entries of a table

The first entry that matches a reference decides what becomes of it. Tables are accepted in one order if
they are in any other (`ofMappings_eq_ok_iff`), and the entries of an accepted table have keys that
cannot stand for the same type. Still two of them can match the same reference: owners `a.K` and `b.K`
both match `K` where `K` means no known type. `ConstantTable.Unambiguous` excludes exactly that.

Main result: the order of the entries has no influence on what is found, and so none on the outcome,
exactly where the table is unambiguous (`Recipe.apply_reordered`).
-/

namespace Migration

open List (Forall₂)

/-! ### References that two entries match -/

namespace TypePattern

variable {p q : TypePattern} {symbols : SymbolTable}

/-- Two patterns that match the same qualifier can stand for the same type, unless the qualifier is a
simple name that means no known type. -/
theorem overlaps_of_matchesQualifier {qualifier : String}
    (hp : p.matchesQualifier symbols qualifier = true)
    (hq : q.matchesQualifier symbols qualifier = true)
    (hmeans : p.simpleName = q.simpleName → p ≠ q →
      (symbols.resolve p.simpleName).type? ≠ none) : p.overlaps q = true := by
  have hsimple := (simple_of_matchesQualifier hp).symm.trans (simple_of_matchesQualifier hq)
  refine overlaps_iff.mpr ⟨hsimple, fun a b ha hb => ?_⟩
  by_contra hne
  have hother : p ≠ q := by
    rintro rfl
    rw [ha] at hb
    exact hne (Option.some.inj hb)
  have hdotted {r : TypePattern} {full : String} (hr : r.fullName? = some full) (o : TypePattern) :
      full ≠ o.simpleName := by
    rintro rfl
    obtain ⟨hqualified, hspelled⟩ := fullName?_eq_some.mp hr
    rw [hspelled, Name.isQualified_eq_false.mpr o.dotless_simpleName] at hqualified
    cases hqualified
  rcases matchesQualifier_iff.mp hp with hpfull | ⟨rfl, hpmeans⟩
  · rcases matchesQualifier_iff.mp hq with hqfull | ⟨rfl, _⟩
    · rw [ha] at hpfull
      rw [hb] at hqfull
      exact hne ((Option.some.inj hpfull).trans (Option.some.inj hqfull).symm)
    · exact hdotted hpfull q rfl
  · rcases matchesQualifier_iff.mp hq with hqfull | ⟨_, hqmeans⟩
    · exact hdotted hqfull p rfl
    · obtain ⟨full, hfull⟩ := Option.ne_none_iff_exists'.mp (hmeans hsimple hother)
      exact hne ((hpmeans a full ha hfull).trans (hqmeans b full hb hfull).symm)

end TypePattern

namespace ConstantTable

variable {t : ConstantTable} {symbols : SymbolTable}

/-- No two entries move the same member of types with the same simple name, unless this name means a
known type. -/
def Unambiguous (t : ConstantTable) (symbols : SymbolTable) : Prop :=
  ∀ c ∈ t.entries, ∀ d ∈ t.entries, c.oldMember = d.oldMember →
    c.oldOwner.simpleName = d.oldOwner.simpleName → c.oldOwner ≠ d.oldOwner →
      (symbols.resolve c.oldOwner.simpleName).type? ≠ none

instance (t : ConstantTable) (symbols : SymbolTable) : Decidable (t.Unambiguous symbols) :=
  inferInstanceAs (Decidable (∀ c ∈ t.entries, ∀ d ∈ t.entries, c.oldMember = d.oldMember →
    c.oldOwner.simpleName = d.oldOwner.simpleName → c.oldOwner ≠ d.oldOwner →
      (symbols.resolve c.oldOwner.simpleName).type? ≠ none))

/-- At most one entry of an unambiguous table matches a reference. -/
theorem Unambiguous.unique (h : t.Unambiguous symbols)
    (hpairs : t.entries.Pairwise ConstantChange.Compatible) {a : FieldAccess}
    {c d : ConstantChange} (hc : c ∈ t.entries) (hd : d ∈ t.entries)
    (hcmatch : c.isMatch symbols a = true) (hdmatch : d.isMatch symbols a = true) : c = d := by
  by_contra hne
  have hkeys := (hpairs.forall hc hd hne).keys
  rw [ConstantChange.isMatch, TypePattern.matchesReference, Bool.and_eq_true, beq_iff_eq]
    at hcmatch hdmatch
  obtain ⟨hcmember, hcowner⟩ := hcmatch
  obtain ⟨hdmember, hdowner⟩ := hdmatch
  have hmember := hcmember.symm.trans hdmember
  have hoverlaps : c.oldOwner.overlaps d.oldOwner = true := by
    cases howner : a.owner with
    | some name =>
      rw [howner] at hcowner hdowner
      exact TypePattern.overlaps_of_matchesFullName hcowner hdowner
    | none =>
      rw [howner] at hcowner hdowner
      cases hspelled : a.target.dottedName? with
      | none =>
        rw [hspelled] at hcowner
        cases hcowner
      | some qualifier =>
        rw [hspelled] at hcowner hdowner
        exact TypePattern.overlaps_of_matchesQualifier hcowner hdowner (h c hc d hd hmember)
  rw [ConstantChange.sameKey, hoverlaps, hmember, beq_self_eq_true] at hkeys
  cases hkeys

/-- An unambiguous table gives the same entry in any order. -/
theorem Unambiguous.find?_perm (h : t.Unambiguous symbols)
    (hpairs : t.entries.Pairwise ConstantChange.Compatible) {t' : ConstantTable}
    (hperm : t'.entries.Perm t.entries) (a : FieldAccess) :
    t'.find? symbols a = t.find? symbols a := by
  cases hfound : t.find? symbols a with
  | none =>
    rw [find?, List.find?_eq_none] at hfound ⊢
    exact fun c hc => hfound c (hperm.mem_iff.mp hc)
  | some c =>
    cases hfound' : t'.find? symbols a with
    | none =>
      rw [find?, List.find?_eq_none] at hfound'
      exact absurd (isMatch_of_find? hfound) (hfound' c (hperm.mem_iff.mpr (mem_of_find? hfound)))
    | some d =>
      rw [h.unique hpairs (hperm.mem_iff.mp (mem_of_find? hfound')) (mem_of_find? hfound)
        (isMatch_of_find? hfound') (isMatch_of_find? hfound)]

/-- The reference to a member behind a simple name. -/
def reference (owner member : String) : FieldAccess :=
  ⟨0, .name ⟨0, "", owner⟩, "", ⟨0, "", member⟩, none⟩

/-- Behind a name that means no known type, every owner with that simple name is matched. -/
theorem isMatch_reference {c : ConstantChange} {owner : String}
    (howner : c.oldOwner.simpleName = owner) (hnone : (symbols.resolve owner).type? = none) :
    c.isMatch symbols (reference owner c.oldMember) = true := by
  refine (ConstantChange.isMatch_iff rfl).mpr ⟨rfl, owner, rfl, ?_⟩
  refine TypePattern.matchesQualifier_iff.mpr (.inr ⟨howner.symm, fun a b _ hb => ?_⟩)
  rw [hnone] at hb
  cases hb

/-- **Where the order of a table has no influence**: exactly where the table is unambiguous. -/
theorem unambiguous_iff {ms : List ConstantMapping} (ht : ofMappings ms = .ok t) :
    t.Unambiguous symbols ↔ ∀ ms' t', ms'.Perm ms → ofMappings ms' = .ok t' →
      ∀ a, t'.find? symbols a = t.find? symbols a := by
  obtain ⟨_, _, hpairs⟩ := ofMappings_eq_ok_iff.mp ht
  constructor
  · intro h ms' t' hperm ht' a
    exact h.find?_perm hpairs (entries_perm ht hperm ht') a
  · intro hsame c hc d hd hmember hsimple hne hnone
    -- Whichever matching entry comes first is found, so both are the one that `t` finds.
    have hfirst {e : ConstantChange} (he : e ∈ t.entries) {a : FieldAccess}
        (hmatch : e.isMatch symbols a = true) : t.find? symbols a = some e := by
      obtain ⟨ms', t', hperm, ht', rest, hentries⟩ := exists_ofMappings_first ht he
      rw [← hsame ms' t' hperm ht' a, find?, hentries, List.find?_cons, hmatch]
    have hcfound := hfirst hc (isMatch_reference rfl hnone)
    have hdfound := hfirst hd (isMatch_reference hsimple.symm hnone)
    rw [← hmember, hcfound] at hdfound
    exact hne (congrArg ConstantChange.oldOwner (Option.some.inj hdfound))

/-- What a table does depends on its order only through the entries that it finds. -/
theorem pass_congr {t' : ConstantTable} (hperm : t'.entries.Perm t.entries)
    (hfind : ∀ a, t'.find? symbols a = t.find? symbols a) (m : Module) :
    t'.pass symbols m = t.pass symbols m := by
  have hreplace : t'.replace symbols = t.replace symbols := by
    funext a s
    rw [replace, replace, hfind]
  have hdepth : t'.depthBound symbols m = t.depthBound symbols m := by
    have hcomm : LeftCommutative fun (c : ConstantChange) n => chainLength symbols c + 1 + n :=
      ⟨fun c d n => by omega⟩
    rw [depthBound, depthBound, hperm.foldr_eq]
  rw [pass, pass, passWithin, passWithin, hooks, hooks, hreplace, hdepth]

end ConstantTable

/-! ### Recipes -/

namespace Recipe

open ConstantTable (ofMappings)

/-- **What the order of a table has influence on.** A table is accepted in any order. The order has no
influence on which entry is found exactly where the table is unambiguous, and there it has none on the
outcome. -/
theorem apply_reordered {ms : List ConstantMapping} {t : ConstantTable} (ht : ofMappings ms = .ok t)
    (index : TypeIndex) (m : Module) :
    (∀ ms', ms'.Perm ms → ∃ t', ofMappings ms' = .ok t') ∧
    (t.Unambiguous (.ofModule m index) ↔ ∀ ms' t', ms'.Perm ms → ofMappings ms' = .ok t' →
      ∀ a, t'.find? (.ofModule m index) a = t.find? (.ofModule m index) a) ∧
    (t.Unambiguous (.ofModule m index) → ∀ ms' t', ms'.Perm ms → ofMappings ms' = .ok t' →
      (changeConstants t').apply index m = (changeConstants t).apply index m) := by
  refine ⟨fun ms' hperm => ?_, ConstantTable.unambiguous_iff ht, fun h ms' t' hperm ht' => ?_⟩
  · obtain ⟨t', ht', _⟩ := ConstantTable.exists_ofMappings_of_perm ht hperm
    exact ⟨t', ht'⟩
  · have hfind := (ConstantTable.unambiguous_iff ht).mp h ms' t' hperm ht'
    rw [apply, apply, applyPass, applyPass,
      ConstantTable.pass_congr (ConstantTable.entries_perm ht hperm ht') hfind]

/-- Two entries for members of types with the same simple name, where that name is imported: in either
order the entry for the imported type is found. -/
theorem apply_reordered_imported : ∃ t t' m a,
    ofMappings [⟨"a.K", "X", "p.L", "X"⟩, ⟨"b.K", "X", "q.M", "Y"⟩] = .ok t ∧
    ofMappings [⟨"b.K", "X", "q.M", "Y"⟩, ⟨"a.K", "X", "p.L", "X"⟩] = .ok t' ∧
    Module.parse "import b.K; class A { int a = K.X; }" = .ok m ∧
    t.Unambiguous (.ofModule m (.ofList [])) ∧
    (changeConstants t).apply (.ofList []) m = some (.ok a) ∧
    a.module.print = "import q.M; class A { int a = M.Y; }" ∧
    (changeConstants t').apply (.ofList []) m = some (.ok a) := by
  have hcheck : (do
      let t ← (ofMappings [⟨"a.K", "X", "p.L", "X"⟩, ⟨"b.K", "X", "q.M", "Y"⟩]).toOption
      let m ← (Module.parse "import b.K; class A { int a = K.X; }").toOption
      let a ← ((changeConstants t).apply (.ofList []) m).bind Except.toOption
      return decide (t.Unambiguous (.ofModule m (.ofList [])))
        && a.module.print == "import q.M; class A { int a = M.Y; }" : Option Bool) = some true := by
    decide +kernel
  obtain ⟨t, ht, hcheck⟩ := Option.bind_eq_some_iff.mp hcheck
  obtain ⟨m, hm, hcheck⟩ := Option.bind_eq_some_iff.mp hcheck
  obtain ⟨a, ha, hcheck⟩ := Option.bind_eq_some_iff.mp hcheck
  obtain ⟨outcome, happly, hok⟩ := Option.bind_eq_some_iff.mp ha
  rw [eq_ok_of_toOption hok] at happly
  simp only [pure, Option.some.injEq, Bool.and_eq_true, decide_eq_true_eq, beq_iff_eq] at hcheck
  obtain ⟨hclear, hprint⟩ := hcheck
  obtain ⟨hany, _, hsame⟩ := apply_reordered (eq_ok_of_toOption ht) (.ofList []) m
  have hswap : [⟨"b.K", "X", "q.M", "Y"⟩, ⟨"a.K", "X", "p.L", "X"⟩].Perm
      [(⟨"a.K", "X", "p.L", "X"⟩ : ConstantMapping), ⟨"b.K", "X", "q.M", "Y"⟩] :=
    List.Perm.swap _ _ _
  obtain ⟨t', ht'⟩ := hany _ hswap
  refine ⟨t, t', m, a, eq_ok_of_toOption ht, ht', eq_ok_of_toOption hm, hclear, happly, hprint, ?_⟩
  rw [hsame hclear _ t' hswap ht', happly]

/-- The same entries where the name means no known type: each order moves the constant elsewhere. -/
theorem apply_reordered_ambiguous : ∃ t t' m a b,
    ofMappings [⟨"a.K", "X", "p.L", "X"⟩, ⟨"b.K", "X", "q.M", "Y"⟩] = .ok t ∧
    ofMappings [⟨"b.K", "X", "q.M", "Y"⟩, ⟨"a.K", "X", "p.L", "X"⟩] = .ok t' ∧
    Module.parse "class A { int a = K.X; }" = .ok m ∧
    (changeConstants t).apply (.ofList []) m = some (.ok a) ∧
    (changeConstants t').apply (.ofList []) m = some (.ok b) ∧
    a.module.print = "import p.L;\n\nclass A { int a = L.X; }" ∧
    b.module.print = "import q.M;\n\nclass A { int a = M.Y; }" := by
  have hcheck : (do
      let t ← (ofMappings [⟨"a.K", "X", "p.L", "X"⟩, ⟨"b.K", "X", "q.M", "Y"⟩]).toOption
      let t' ← (ofMappings [⟨"b.K", "X", "q.M", "Y"⟩, ⟨"a.K", "X", "p.L", "X"⟩]).toOption
      let m ← (Module.parse "class A { int a = K.X; }").toOption
      let a ← ((changeConstants t).apply (.ofList []) m).bind Except.toOption
      let b ← ((changeConstants t').apply (.ofList []) m).bind Except.toOption
      return a.module.print == "import p.L;\n\nclass A { int a = L.X; }"
        && b.module.print == "import q.M;\n\nclass A { int a = M.Y; }" : Option Bool)
      = some true := by
    decide +kernel
  obtain ⟨t, ht, hcheck⟩ := Option.bind_eq_some_iff.mp hcheck
  obtain ⟨t', ht', hcheck⟩ := Option.bind_eq_some_iff.mp hcheck
  obtain ⟨m, hm, hcheck⟩ := Option.bind_eq_some_iff.mp hcheck
  obtain ⟨a, ha, hcheck⟩ := Option.bind_eq_some_iff.mp hcheck
  obtain ⟨b, hb, hcheck⟩ := Option.bind_eq_some_iff.mp hcheck
  obtain ⟨_, happly, hok⟩ := Option.bind_eq_some_iff.mp ha
  obtain ⟨_, happly', hok'⟩ := Option.bind_eq_some_iff.mp hb
  rw [eq_ok_of_toOption hok] at happly
  rw [eq_ok_of_toOption hok'] at happly'
  simp only [pure, Option.some.injEq, Bool.and_eq_true, beq_iff_eq] at hcheck
  exact ⟨t, t', m, a, b, eq_ok_of_toOption ht, eq_ok_of_toOption ht', eq_ok_of_toOption hm, happly,
    happly', hcheck⟩

end Recipe

end Migration
