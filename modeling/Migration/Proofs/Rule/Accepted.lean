import Mathlib.Data.List.Pairwise
import Mathlib.Data.List.Perm.Basic
import Migration.Proofs.Rule.Settled

/-!
# Accepted tables

A table is checked entry by entry against the entries in front of it, and then once more for what each
entry produces, by comparing how the patterns are spelled. Two patterns overlap exactly if some type is
matched by both (`TypePattern.overlaps_iff_exists`), whether they are configured simply or in full. So
the check means what it is meant to: a table is accepted exactly if no two of its entries match the same
constant and none matches what another one produces (`ConstantTable.isOk_ofMappings_iff`). Tables are
accepted in one order if they are in any other.
-/

namespace Migration

open List (Forall₂)

/-! ### Patterns that match the same type -/

namespace TypePattern

variable {p q : TypePattern}

theorem matchesFullName_iff {name : String} : p.matchesFullName name = true ↔
    Name.simple name = p.simpleName ∧ ∀ a, p.fullName? = some a → a = name := by
  rw [matchesFullName]
  cases hfull : p.fullName? with
  | none => simp
  | some full =>
    have hspelled := (fullName?_eq_some.mp hfull).2
    simp only [beq_iff_eq, Option.some.injEq, forall_eq']
    refine ⟨fun h => ⟨?_, h⟩, And.right⟩
    rw [← h, ← hspelled]
    rfl

theorem overlaps_of_matchesFullName {name : String} (hp : p.matchesFullName name = true)
    (hq : q.matchesFullName name = true) : p.overlaps q = true := by
  obtain ⟨hpsimple, hpfull⟩ := matchesFullName_iff.mp hp
  obtain ⟨hqsimple, hqfull⟩ := matchesFullName_iff.mp hq
  exact overlaps_iff.mpr ⟨hpsimple.symm.trans hqsimple, fun a b ha hb =>
    (hpfull a ha).trans (hqfull b hb).symm⟩

/-- **Patterns overlap exactly if some type is matched by both.** It is the one that either names in
full; two simple patterns both match their simple name. -/
theorem overlaps_iff_exists : p.overlaps q = true ↔
    ∃ name, p.matchesFullName name = true ∧ q.matchesFullName name = true := by
  refine ⟨fun h => ?_, fun ⟨name, hp, hq⟩ => overlaps_of_matchesFullName hp hq⟩
  obtain ⟨hsimple, hfull⟩ := overlaps_iff.mp h
  have hself {r : TypePattern} {a : String} (ha : r.fullName? = some a) : a = r.spelled :=
    (fullName?_eq_some.mp ha).2.symm
  cases hp : p.fullName? with
  | some full =>
    obtain rfl := hself hp
    refine ⟨p.spelled, matchesFullName_iff.mpr ⟨rfl, fun a => hself⟩,
      matchesFullName_iff.mpr ⟨hsimple, fun b hb => (hfull _ b hp hb).symm⟩⟩
  | none =>
    refine ⟨q.spelled, matchesFullName_iff.mpr ⟨hsimple.symm, fun a ha => ?_⟩,
      matchesFullName_iff.mpr ⟨rfl, fun b => hself⟩⟩
    rw [hp] at ha
    cases ha

end TypePattern

/-! ### Accepted tables -/

theorem TypePattern.overlaps_comm (p q : TypePattern) : p.overlaps q = q.overlaps p := by
  rw [Bool.eq_iff_iff, overlaps_iff, overlaps_iff, eq_comm]
  exact and_congr_right fun _ =>
    ⟨fun h a b ha hb => (h b a hb ha).symm, fun h a b ha hb => (h b a hb ha).symm⟩

namespace ConstantChange

theorem sameKey_comm (c d : ConstantChange) : c.sameKey d = d.sameKey c := by
  rw [sameKey, sameKey, TypePattern.overlaps_comm, Bool.beq_comm]

/-- Both entries may stand in one table. -/
structure Compatible (c d : ConstantChange) : Prop where
  keys : c.sameKey d = false
  feeds : c.feeds d = false
  fed : d.feeds c = false

theorem Compatible.symm {c d : ConstantChange} (h : c.Compatible d) : d.Compatible c :=
  ⟨(sameKey_comm d c).trans h.keys, h.fed, h.feeds⟩

instance : Std.Symm Compatible := ⟨fun _ _ => Compatible.symm⟩

end ConstantChange

namespace ConstantTable

theorem readEntries_eq_ok_iff {ms : List ConstantMapping} {earlier entries : List ConstantChange} :
    readEntries earlier ms = .ok entries ↔ ∃ cs, entries = earlier ++ cs ∧
      Forall₂ (fun m c => ConstantChange.ofMapping m = .ok c) ms cs ∧
      cs.Pairwise (fun c d => c.sameKey d = false) ∧
      ∀ e ∈ earlier, ∀ c ∈ cs, e.sameKey c = false := by
  induction ms generalizing earlier with
  | nil =>
    constructor
    · intro h
      cases h
      exact ⟨[], (List.append_nil _).symm, .nil, .nil, fun _ _ => List.forall_mem_nil _⟩
    · rintro ⟨cs, rfl, hcs, _⟩
      cases hcs
      rw [List.append_nil]
      rfl
  | cons m ms ih =>
    rw [readEntries, bind_eq_ok]
    constructor
    · rintro ⟨c, hc, h⟩
      dsimp only at h
      split at h
      · cases h
      · next hfree =>
        rw [Bool.not_eq_true, List.any_eq_false] at hfree
        obtain ⟨cs, rfl, hcs, hpairs, hapart⟩ := ih.mp h
        obtain ⟨hearlier, hfirst⟩ := List.forall_mem_append.mp hapart
        refine ⟨c :: cs, by simp, .cons hc hcs, .cons (hfirst c List.mem_cons_self) hpairs, ?_⟩
        intro e he
        exact List.forall_mem_cons.mpr ⟨Bool.eq_false_iff.mpr (hfree e he), hearlier e he⟩
    · rintro ⟨cs, rfl, hcs, hpairs, hapart⟩
      cases hcs with
      | @cons _ c _ cs hc hcs =>
        obtain ⟨hfirst, hpairs⟩ := List.pairwise_cons.mp hpairs
        refine ⟨c, hc, ?_⟩
        dsimp only
        rw [if_neg]
        · refine ih.mpr ⟨cs, by simp, hcs, hpairs, List.forall_mem_append.mpr ⟨?_, ?_⟩⟩
          · exact fun e he => (List.forall_mem_cons.mp (hapart e he)).2
          · exact List.forall_mem_singleton.mpr hfirst
        · rw [Bool.not_eq_true, List.any_eq_false]
          exact fun e he => Bool.eq_false_iff.mp (hapart e he c List.mem_cons_self)

theorem chained?_eq_none_iff {before cs : List ConstantChange} :
    chained? before cs = none ↔ (∀ c ∈ cs, ∀ b ∈ before, c.feeds b = false) ∧
      cs.Pairwise fun c d => c.feeds d = false ∧ d.feeds c = false := by
  induction cs generalizing before with
  | nil => exact iff_of_true rfl ⟨List.forall_mem_nil _, .nil⟩
  | cons c cs ih =>
    rw [chained?, List.pairwise_cons, List.forall_mem_cons]
    by_cases hfeeds : (before ++ cs).any c.feeds = true
    · rw [if_pos hfeeds]
      refine iff_of_false nofun ?_
      rintro ⟨⟨hbefore, _⟩, hafter, _⟩
      obtain ⟨d, hd, hfeeds⟩ := List.any_eq_true.mp hfeeds
      rcases List.mem_append.mp hd with hd | hd
      · exact Bool.eq_false_iff.mp (hbefore d hd) hfeeds
      · exact Bool.eq_false_iff.mp (hafter d hd).1 hfeeds
    · rw [if_neg hfeeds, ih]
      rw [Bool.not_eq_true, List.any_eq_false] at hfeeds
      obtain ⟨hbefore, hafter⟩ := List.forall_mem_append.mp hfeeds
      constructor
      · rintro ⟨hfed, hpairs⟩
        refine ⟨⟨fun b hb => Bool.eq_false_iff.mpr (hbefore b hb), fun d hd b hb => ?_⟩,
          fun d hd => ⟨Bool.eq_false_iff.mpr (hafter d hd), ?_⟩, hpairs⟩
        · exact hfed d hd b (List.mem_append_left _ hb)
        · exact hfed d hd c (List.mem_append_right _ List.mem_cons_self)
      · rintro ⟨⟨_, hfed⟩, hfirst, hpairs⟩
        refine ⟨fun d hd => List.forall_mem_append.mpr ⟨hfed d hd, ?_⟩, hpairs⟩
        exact List.forall_mem_singleton.mpr (hfirst d hd).2

/-- **Which tables are accepted.** Their entries fit each other two by two, in whatever order. -/
theorem ofMappings_eq_ok_iff {ms : List ConstantMapping} {t : ConstantTable} :
    ofMappings ms = .ok t ↔ ms ≠ [] ∧
      Forall₂ (fun m c => ConstantChange.ofMapping m = .ok c) ms t.entries ∧
      t.entries.Pairwise ConstantChange.Compatible := by
  have hsplit (cs : List ConstantChange) : cs.Pairwise ConstantChange.Compatible ↔
      cs.Pairwise (fun c d => c.sameKey d = false) ∧
        cs.Pairwise fun c d => c.feeds d = false ∧ d.feeds c = false := by
    rw [← List.pairwise_and_iff]
    exact List.Pairwise.iff fun c d =>
      ⟨fun h => ⟨h.keys, h.feeds, h.fed⟩, fun ⟨hkeys, hfeeds, hfed⟩ => ⟨hkeys, hfeeds, hfed⟩⟩
  rw [hsplit, ofMappings]
  cases ms with
  | nil => exact iff_of_false nofun fun h => h.1 rfl
  | cons m ms =>
    rw [if_neg nofun, bind_eq_ok]
    constructor
    · rintro ⟨entries, hentries, h⟩
      split at h
      case h_1 => cases h
      case h_2 hchained =>
        cases h
        obtain ⟨cs, rfl, hcs, hpairs, _⟩ := readEntries_eq_ok_iff.mp hentries
        exact ⟨nofun, hcs, hpairs, (chained?_eq_none_iff.mp hchained).2⟩
    · rintro ⟨_, hcs, hpairs, hfeeds⟩
      refine ⟨t.entries, readEntries_eq_ok_iff.mpr ⟨t.entries, rfl, hcs, hpairs, ?_⟩, ?_⟩
      · exact List.forall_mem_nil _
      · rw [chained?_eq_none_iff.mpr ⟨fun _ _ => List.forall_mem_nil _, hfeeds⟩]
        rfl

variable {ms : List ConstantMapping} {t : ConstantTable} (ht : ofMappings ms = .ok t)

include ht

/-- A table is accepted in any order. -/
theorem exists_ofMappings_of_perm {ms' : List ConstantMapping} (hperm : ms'.Perm ms) :
    ∃ t', ofMappings ms' = .ok t' ∧ t'.entries.Perm t.entries := by
  obtain ⟨hne, hentries, hpairs⟩ := ofMappings_eq_ok_iff.mp ht
  obtain ⟨entries, hentries', hperm'⟩ := List.perm_comp_forall₂ hperm hentries
  refine ⟨⟨entries⟩, ofMappings_eq_ok_iff.mpr ⟨?_, hentries', ?_⟩, hperm'⟩
  · rintro rfl
    exact hne hperm.symm.eq_nil
  · exact (hperm'.pairwise_iff ConstantChange.Compatible.symm).mpr hpairs

theorem entries_perm {ms' : List ConstantMapping} {t' : ConstantTable} (hperm : ms'.Perm ms)
    (ht' : ofMappings ms' = .ok t') : t'.entries.Perm t.entries := by
  obtain ⟨u, hu, hperm'⟩ := exists_ofMappings_of_perm ht hperm
  cases hu.symm.trans ht'
  exact hperm'

/-- Any entry of a table is the first one in some order. -/
theorem exists_ofMappings_first {c : ConstantChange} (hc : c ∈ t.entries) :
    ∃ ms' t', ms'.Perm ms ∧ ofMappings ms' = .ok t' ∧ ∃ rest, t'.entries = c :: rest := by
  obtain ⟨hne, hentries, hpairs⟩ := ofMappings_eq_ok_iff.mp ht
  obtain ⟨before, after, hsplit⟩ := List.append_of_mem hc
  have hperm : t.entries.Perm (c :: (before ++ after)) := by
    rw [hsplit]
    exact List.perm_middle
  obtain ⟨ms', hperm', hentries'⟩ :
      Relation.Comp List.Perm (Forall₂ fun m c => ConstantChange.ofMapping m = .ok c) ms
        (c :: (before ++ after)) := by
    rw [← List.forall₂_comp_perm_eq_perm_comp_forall₂]
    exact ⟨t.entries, hentries, hperm⟩
  refine ⟨ms', ⟨c :: (before ++ after)⟩, hperm'.symm, ofMappings_eq_ok_iff.mpr ⟨?_, hentries', ?_⟩,
    before ++ after, rfl⟩
  · rintro rfl
    exact hne hperm'.eq_nil
  · exact (hperm.pairwise_iff ConstantChange.Compatible.symm).mp hpairs

end ConstantTable

/-! ### What the check of a table means -/

namespace ConstantChange

variable {c d : ConstantChange}

theorem sameKey_iff : c.sameKey d = true ↔ c.oldMember = d.oldMember ∧
    ∃ name, c.oldOwner.matchesFullName name = true ∧ d.oldOwner.matchesFullName name = true := by
  rw [sameKey, Bool.and_eq_true, beq_iff_eq, TypePattern.overlaps_iff_exists]

theorem feeds_iff : c.feeds d = true ↔ c.newMember = d.oldMember ∧
    ∃ name, c.newOwner.matchesFullName name = true ∧ d.oldOwner.matchesFullName name = true := by
  rw [feeds, Bool.and_eq_true, beq_iff_eq, TypePattern.overlaps_iff_exists]

/-- Entries fit each other two by two if they do at any two places, in either order. -/
theorem pairwise_compatible_iff {cs : List ConstantChange} : cs.Pairwise Compatible ↔
    ∀ (i j : Nat) (c d : ConstantChange), i ≠ j → cs[i]? = some c → cs[j]? = some d →
      ¬ c.sameKey d = true ∧ ¬ c.feeds d = true := by
  rw [List.pairwise_iff_getElem]
  constructor
  · intro h i j c d hne hc hd
    obtain ⟨hi, rfl⟩ := List.getElem?_eq_some_iff.mp hc
    obtain ⟨hj, rfl⟩ := List.getElem?_eq_some_iff.mp hd
    have hfit : Compatible cs[i] cs[j] := by
      rcases Nat.lt_or_gt_of_ne hne with hlt | hgt
      · exact h i j hi hj hlt
      · exact (h j i hj hi hgt).symm
    exact ⟨Bool.eq_false_iff.mp hfit.keys, Bool.eq_false_iff.mp hfit.feeds⟩
  · intro h i j hi hj hlt
    have hij := h i j _ _ (Nat.ne_of_lt hlt) (List.getElem?_eq_getElem hi) (List.getElem?_eq_getElem hj)
    have hji := h j i _ _ (Nat.ne_of_gt hlt) (List.getElem?_eq_getElem hj) (List.getElem?_eq_getElem hi)
    exact ⟨Bool.eq_false_iff.mpr hij.1, Bool.eq_false_iff.mpr hij.2, Bool.eq_false_iff.mpr hji.2⟩

end ConstantChange

namespace ConstantTable

/-- A list of moves that are valid one by one is accepted exactly if what they describe fits. -/
theorem isOk_ofMappings {ms : List ConstantMapping} {cs : List ConstantChange} (hne : ms ≠ [])
    (hcs : Forall₂ (fun m c => ConstantChange.ofMapping m = .ok c) ms cs) :
    (ofMappings ms).isOk = true ↔ cs.Pairwise ConstantChange.Compatible := by
  constructor
  · intro h
    cases hrun : ofMappings ms with
    | error e =>
      rw [hrun] at h
      cases h
    | ok t =>
      obtain ⟨_, hentries, hpairs⟩ := ofMappings_eq_ok_iff.mp hrun
      have hsame : cs = t.entries :=
        List.right_unique_forall₂' (fun _ _ _ hc hd => Except.ok.inj (hc.symm.trans hd)) hcs hentries
      rw [hsame]
      exact hpairs
  · intro h
    have hrun : ofMappings ms = .ok ⟨cs⟩ := ofMappings_eq_ok_iff.mpr ⟨hne, hcs, h⟩
    rw [hrun]
    rfl

theorem isOk_ofMappings_of_perm {ms ms' : List ConstantMapping} (hperm : ms'.Perm ms)
    (h : (ofMappings ms).isOk = true) : (ofMappings ms').isOk = true := by
  cases hrun : ofMappings ms with
  | error e =>
    rw [hrun] at h
    cases h
  | ok t =>
    obtain ⟨t', hrun', _⟩ := exists_ofMappings_of_perm hrun hperm
    rw [hrun']
    rfl

/-- **A table is accepted exactly if its entries are apart.** At different places no two move the same
member of a type that both match, and none produces the member that another one moves of a type that it
matches. So the order of the entries has no influence. -/
theorem isOk_ofMappings_iff {ms : List ConstantMapping} {cs : List ConstantChange} (hne : ms ≠ [])
    (hcs : Forall₂ (fun m c => ConstantChange.ofMapping m = .ok c) ms cs) :
    ((ofMappings ms).isOk = true ↔
      (∀ (i j : Nat) (c d : ConstantChange), i ≠ j → cs[i]? = some c → cs[j]? = some d →
        ¬ (c.oldMember = d.oldMember ∧ ∃ name, c.oldOwner.matchesFullName name = true
          ∧ d.oldOwner.matchesFullName name = true)) ∧
      (∀ (i j : Nat) (c d : ConstantChange), i ≠ j → cs[i]? = some c → cs[j]? = some d →
        ¬ (c.newMember = d.oldMember ∧ ∃ name, c.newOwner.matchesFullName name = true
          ∧ d.oldOwner.matchesFullName name = true))) ∧
    ∀ ms', ms'.Perm ms → (ofMappings ms').isOk = (ofMappings ms).isOk := by
  refine ⟨?_, fun ms' hperm => ?_⟩
  · rw [isOk_ofMappings hne hcs, ConstantChange.pairwise_compatible_iff]
    simp only [ConstantChange.sameKey_iff, ConstantChange.feeds_iff, imp_and, forall_and]
  · rw [Bool.eq_iff_iff]
    exact ⟨isOk_ofMappings_of_perm hperm.symm, isOk_ofMappings_of_perm hperm⟩

/-- A full name that an entry produces, and another entry moves under its simple name. -/
theorem isOk_ofMappings_iff_chained : ∃ cs,
    [(⟨"Constants", "MAX", "com.acme.Limits", "MAX_VALUE"⟩ : ConstantMapping),
      ⟨"Limits", "MAX_VALUE", "com.acme.Bounds", "TOP"⟩] ≠ [] ∧
    Forall₂ (fun m c => ConstantChange.ofMapping m = .ok c)
      [⟨"Constants", "MAX", "com.acme.Limits", "MAX_VALUE"⟩,
        ⟨"Limits", "MAX_VALUE", "com.acme.Bounds", "TOP"⟩] cs ∧
    (ofMappings [⟨"Constants", "MAX", "com.acme.Limits", "MAX_VALUE"⟩,
      ⟨"Limits", "MAX_VALUE", "com.acme.Bounds", "TOP"⟩]).isOk = false ∧
    (ofMappings [⟨"Limits", "MAX_VALUE", "com.acme.Bounds", "TOP"⟩,
      ⟨"Constants", "MAX", "com.acme.Limits", "MAX_VALUE"⟩]).isOk = false := by
  have hcheck : (do
      let c ← (ConstantChange.ofMapping
        ⟨"Constants", "MAX", "com.acme.Limits", "MAX_VALUE"⟩).toOption
      let d ← (ConstantChange.ofMapping ⟨"Limits", "MAX_VALUE", "com.acme.Bounds", "TOP"⟩).toOption
      return c.newMember == d.oldMember && c.newOwner.matchesFullName "com.acme.Limits"
        && d.oldOwner.matchesFullName "com.acme.Limits" : Option Bool) = some true := by
    decide +kernel
  obtain ⟨c, hc, hcheck⟩ := Option.bind_eq_some_iff.mp hcheck
  obtain ⟨d, hd, hcheck⟩ := Option.bind_eq_some_iff.mp hcheck
  simp only [pure, Option.some.injEq, Bool.and_eq_true, beq_iff_eq] at hcheck
  obtain ⟨⟨hmember, hproduced⟩, hmoved⟩ := hcheck
  have hcs : Forall₂ (fun m c => ConstantChange.ofMapping m = .ok c)
      [⟨"Constants", "MAX", "com.acme.Limits", "MAX_VALUE"⟩,
        ⟨"Limits", "MAX_VALUE", "com.acme.Bounds", "TOP"⟩] [c, d] :=
    .cons (eq_ok_of_toOption hc) (.cons (eq_ok_of_toOption hd) .nil)
  obtain ⟨hiff, hperm⟩ := isOk_ofMappings_iff (List.cons_ne_nil _ _) hcs
  have hrefused := Bool.eq_false_iff.mpr fun h =>
    (hiff.mp h).2 0 1 c d (by decide) rfl rfl ⟨hmember, "com.acme.Limits", hproduced, hmoved⟩
  exact ⟨[c, d], List.cons_ne_nil _ _, hcs, hrefused, (hperm _ (.swap _ _ _)).trans hrefused⟩

end ConstantTable

end Migration
