import Mathlib.Data.List.Induction
import Migration.Proofs.Imports.Groups

/-!
# The group that an import joins

A new import joins the first of the groups with which it shares most leading segments
(`bestGroup?_eq_some`), at a place that leaves a group in the order of names in order
(`inOrder_insert`). Groups are compared without trivia, `bareGroups`.
-/

namespace Migration.Imports

/-! ### The choice of a group -/

/-- Some import of the group `g` that is not static shares as many leading segments with `name` as any
in it or behind it, and more than all in front of it. -/
def SharesMost (name : String) (front : List (List Import)) (g : List Import) (back : List (List Import)) :
    Prop :=
  ∃ i ∈ g, i.isStatic = false ∧
    (∀ h ∈ front, ∀ j ∈ h, j.isStatic = false →
      commonSegments j.name name < commonSegments i.name name) ∧
    ∀ h ∈ g :: back, ∀ j ∈ h, j.isStatic = false →
      commonSegments j.name name ≤ commonSegments i.name name

section Choice

variable {name : String} {g : List Import} {gs : List (List Import)}

theorem groupScore?_eq_none : groupScore? name g = none ↔ ∀ i ∈ g, i.isStatic = true := by
  simp [groupScore?, List.max?_eq_none_iff]

theorem groupScore?_eq_some {top : Nat} : groupScore? name g = some top ↔
    (∃ i ∈ g, i.isStatic = false ∧ commonSegments i.name name = top) ∧
      ∀ j ∈ g, j.isStatic = false → commonSegments j.name name ≤ top := by
  rw [groupScore?, List.max?_eq_some_iff, List.forall_mem_map]
  simp [and_assoc]

theorem exists_groupScore? {i : Import} (hi : i ∈ g) (hstatic : i.isStatic = false) :
    ∃ score, groupScore? name g = some score ∧ commonSegments i.name name ≤ score := by
  cases hscore : groupScore? name g with
  | none => cases hstatic.symm.trans (groupScore?_eq_none.mp hscore i hi)
  | some score => exact ⟨score, rfl, (groupScore?_eq_some.mp hscore).2 i hi hstatic⟩

/-- The group that has been chosen when `gs` have been looked at: its position, and its score. -/
def bestSoFar (name : String) (gs : List (List Import)) : Option (Nat × Nat) :=
  gs.zipIdx.foldl (fun best (g, k) =>
    match best, groupScore? name g with
    | best, none => best
    | none, some score => some (k, score)
    | some (l, top), some score => if top < score then some (k, score) else some (l, top)) none

theorem bestGroup?_eq : bestGroup? name gs = (bestSoFar name gs).map (·.1) := rfl

theorem bestSoFar_concat (name : String) (gs : List (List Import)) (g : List Import) :
    bestSoFar name (gs ++ [g]) =
      match bestSoFar name gs, groupScore? name g with
      | best, none => best
      | none, some score => some (gs.length, score)
      | some (l, top), some score => if top < score then some (gs.length, score) else some (l, top) := by
  simp [bestSoFar, List.zipIdx_append]

theorem bestSoFar_eq_none : bestSoFar name gs = none ↔ ∀ g ∈ gs, groupScore? name g = none := by
  induction gs using List.reverseRecOn with
  | nil => simp [bestSoFar]
  | append_singleton gs g ih =>
    rw [bestSoFar_concat, List.forall_mem_append, List.forall_mem_singleton, ← ih]
    cases groupScore? name g with
    | none => cases bestSoFar name gs <;> simp
    | some score =>
      cases bestSoFar name gs with
      | none => simp
      | some best =>
        dsimp only
        split <;> simp

/-- The group that has been chosen has the greatest score, and is the first of those that have it. -/
theorem bestSoFar_eq_some {k top : Nat} (h : bestSoFar name gs = some (k, top)) :
    ∃ front g back, gs = front ++ g :: back ∧ groupScore? name g = some top ∧ front.length = k ∧
      (∀ h ∈ front, ∀ score ∈ groupScore? name h, score < top) ∧
      ∀ h ∈ back, ∀ score ∈ groupScore? name h, score ≤ top := by
  induction gs using List.reverseRecOn generalizing k top with
  | nil => cases h
  | append_singleton gs last ih =>
    rw [bestSoFar_concat] at h
    split at h
    · next best _ hlast =>
      obtain ⟨front, g, back, rfl, hg, hk, hfront, hback⟩ := ih h
      exact ⟨front, g, back ++ [last], by simp, hg, hk, hfront, by simpa [or_imp, forall_and, hlast] using hback⟩
    · next score hbest hlast =>
      cases h
      have hnone := bestSoFar_eq_none.mp hbest
      exact ⟨gs, last, [], rfl, hlast, rfl, fun g hg score hscore => by simp [hnone g hg] at hscore, by simp⟩
    · next l high score hbest hlast =>
      obtain ⟨front, g, back, rfl, hg, hk, hfront, hback⟩ := ih hbest
      split at h
      · next hlt =>
        cases h
        refine ⟨front ++ g :: back, last, [], rfl, hlast, rfl, ?_, by simp⟩
        simp only [List.forall_mem_append, List.forall_mem_cons]
        refine ⟨fun h hh s hs => (hfront h hh s hs).trans hlt, ?_, fun h hh s hs => (hback h hh s hs).trans_lt hlt⟩
        rw [hg]
        rintro _ ⟨⟩
        exact hlt
      · next hle =>
        cases h
        refine ⟨front, g, back ++ [last], by simp, hg, hk, hfront, ?_⟩
        simp only [List.forall_mem_append, List.forall_mem_singleton]
        refine ⟨hback, ?_⟩
        rw [hlast]
        rintro _ ⟨⟩
        exact not_lt.mp hle

/-- **The group that is chosen** is the first of those that share most with the name. -/
theorem bestGroup?_eq_some {k : Nat} (h : bestGroup? name gs = some k) :
    ∃ front g back, gs = front ++ g :: back ∧ front.length = k ∧ SharesMost name front g back := by
  rw [bestGroup?_eq, Option.map_eq_some_iff] at h
  obtain ⟨⟨_, top⟩, hbest, rfl⟩ := h
  obtain ⟨front, g, back, rfl, hg, hk, hfront, hback⟩ := bestSoFar_eq_some hbest
  obtain ⟨⟨i, hi, hstatic, rfl⟩, hmost⟩ := groupScore?_eq_some.mp hg
  refine ⟨front, g, back, rfl, hk, i, hi, hstatic, fun h hh j hj hjs => ?_,
    List.forall_mem_cons.mpr ⟨hmost, fun h hh j hj hjs => ?_⟩⟩
  · obtain ⟨score, hscore, hle⟩ := exists_groupScore? hj hjs
    exact hle.trans_lt (hfront h hh score hscore)
  · obtain ⟨score, hscore, hle⟩ := exists_groupScore? hj hjs
    exact hle.trans (hback h hh score hscore)

theorem bestGroup?_eq_none (h : bestGroup? name gs = none) : ∀ g ∈ gs, ∀ i ∈ g, i.isStatic = true := by
  rw [bestGroup?_eq, Option.map_eq_none_iff, bestSoFar_eq_none] at h
  exact fun g hg => groupScore?_eq_none.mp (h g hg)

end Choice

/-! ### The place in a group -/

/-- The imports that are not static are in the order of names. -/
def InOrder (g : List Import) : Prop := (g.filter (!·.isStatic)).Pairwise fun i j => i.name ≤ j.name

instance (g : List Import) : Decidable (InOrder g) :=
  inferInstanceAs (Decidable ((g.filter (!·.isStatic)).Pairwise fun i j => i.name ≤ j.name))

section Place

variable {g : List Import}

theorem inOrder_singleton (i : Import) : InOrder [i] := by
  cases h : i.isStatic <;> simp [InOrder, h]

theorem inOrder_bare : InOrder (g.map Import.bare) ↔ InOrder g := by
  rw [InOrder, List.filter_map, List.pairwise_map, InOrder]
  rfl

theorem InOrder.sublist {h : List Import} (hg : InOrder g) (hsub : h.Sublist g) : InOrder h :=
  List.Pairwise.sublist (hsub.filter _) hg

theorem InOrder.insert {as bs : List Import} {new : Import} (h : InOrder (as ++ bs))
    (has : ∀ i ∈ as, i.isStatic = false → i.name ≤ new.name)
    (hbs : ∀ i ∈ bs, i.isStatic = false → new.name ≤ i.name) : InOrder (as ++ new :: bs) := by
  cases hnew : new.isStatic with
  | true =>
    rwa [InOrder, List.filter_append, List.filter_cons_of_neg (by simp [hnew]), ← List.filter_append]
  | false =>
    rw [InOrder, List.filter_append, List.pairwise_append] at h ⊢
    obtain ⟨hfront, hback, hacross⟩ := h
    rw [List.filter_cons_of_pos (by rw [hnew]; rfl), List.pairwise_cons]
    refine ⟨hfront, ⟨fun i hi => ?_, hback⟩, fun i hi => List.forall_mem_cons.mpr ⟨?_, hacross i hi⟩⟩
    · rw [List.mem_filter, Bool.not_eq_true'] at hi
      exact hbs i hi.1 hi.2
    · rw [List.mem_filter, Bool.not_eq_true'] at hi
      exact has i hi.1 hi.2

theorem positionIn_le (name : String) (g : List Import) : positionIn name g ≤ g.length := by
  unfold positionIn
  split
  · next k hk => exact (List.findIdx?_eq_some_iff_getElem.mp hk).1.le
  · exact Nat.sub_le _ _

/-- In front of the place of a name, and behind it if the group is in order, no import is out of order. -/
theorem positionIn_between (name : String) (h : InOrder g) :
    (∀ i ∈ g.take (positionIn name g), i.isStatic = false → i.name ≤ name) ∧
      ∀ i ∈ g.drop (positionIn name g), i.isStatic = false → name ≤ i.name := by
  unfold positionIn
  split
  · next k hk =>
    obtain ⟨hlt, hgreater, hfront⟩ := List.findIdx?_eq_some_iff_getElem.mp hk
    rw [Bool.and_eq_true, Bool.not_eq_true', decide_eq_true_eq] at hgreater
    refine ⟨fun i hi hstatic => ?_, fun i hi hstatic => ?_⟩
    · obtain ⟨l, hl, rfl⟩ := List.mem_take_iff_getElem.mp hi
      have hnot := hfront l (by omega)
      rw [hstatic, Bool.not_false, Bool.true_and, decide_eq_true_eq] at hnot
      exact String.not_lt.mp hnot
    · rw [List.drop_eq_getElem_cons hlt] at hi
      -- the imports behind the first greater one are greater still
      have hordered : InOrder (g[k] :: g.drop (k + 1)) := by
        rw [← List.drop_eq_getElem_cons hlt]
        exact h.sublist (List.drop_sublist k g)
      rw [InOrder, List.filter_cons_of_pos (by rw [hgreater.1]; rfl), List.pairwise_cons] at hordered
      rcases List.mem_cons.mp hi with rfl | hi
      · exact Std.le_of_lt hgreater.2
      · have hle := hordered.1 i (List.mem_filter.mpr ⟨hi, by rw [hstatic]; rfl⟩)
        exact String.le_trans (Std.le_of_lt hgreater.2) hle
  · next hnone =>
    rw [List.findIdx?_eq_none_iff] at hnone
    refine ⟨fun i hi hstatic => ?_, fun i hi hstatic => ?_⟩
    · have hnot := hnone i (List.mem_of_mem_take hi)
      rw [hstatic, Bool.not_false, Bool.true_and, decide_eq_false_iff_not] at hnot
      exact String.not_lt.mp hnot
    · -- behind the last import that is not static there are static ones only
      rw [← List.mem_reverse, List.reverse_drop] at hi
      obtain ⟨l, hl, rfl⟩ := List.mem_take_iff_getElem.mp hi
      have hlt : l < g.reverse.findIdx fun i => !i.isStatic := by omega
      have hlast := List.not_of_lt_findIdx hlt
      rw [hstatic] at hlast
      cases hlast

end Place

/-! ### Joining a group -/

/-- The groups of imports without the trivia in front of each. -/
def bareGroups (imports : List Import) : List (List Import) := (groups imports).map (·.map Import.bare)

/-- The import `new` has been put into the list `xs`, which is not empty. It joins the group that shares most
with its name, at a place that leaves the group in order; in front of static imports only it is a group
of its own. -/
inductive Joins (new : Import) (xs ys : List Import) : Prop
  | group (front : List (List Import)) (g : List Import) (back : List (List Import)) (place : Nat)
      (before : bareGroups xs = front ++ g :: back)
      (after : bareGroups ys = front ++ (g.take place ++ new :: g.drop place) :: back)
      (most : SharesMost new.name front g back)
      (bounds : front.flatten.length < xs.length ∧ front.flatten.length + g.length ≤ xs.length ∧
        place ≤ g.length)
      (ordered : InOrder g → InOrder (g.take place ++ new :: g.drop place))
  | alone (nonempty : xs ≠ []) (static : ∀ i ∈ xs, i.isStatic = true)
      (after : bareGroups ys = [new] :: bareGroups xs)

theorem SharesMost.bare {name : String} {front back : List (List Import)} {g : List Import}
    (h : SharesMost name front g back) :
    SharesMost name (front.map (·.map Import.bare)) (g.map Import.bare) (back.map (·.map Import.bare)) := by
  obtain ⟨i, hi, hstatic, hfront, hback⟩ := h
  refine ⟨i.bare, List.mem_map_of_mem hi, hstatic, ?_, ?_⟩
  · simp only [List.forall_mem_map]
    exact hfront
  · simp only [List.forall_mem_cons, List.forall_mem_map] at hback ⊢
    exact hback

theorem positionIn_bare (name : String) (g : List Import) :
    positionIn name (g.map Import.bare) = positionIn name g := by
  unfold positionIn
  rw [List.findIdx?_map, ← List.map_reverse, List.findIdx_map, List.length_map]
  rfl

theorem length_flatten_bareGroups (imports : List Import) :
    (bareGroups imports).flatten.length = imports.length := by
  rw [bareGroups, ← List.map_flatten, List.length_map, flatten_groups]

theorem bareGroups_withLead (first : Import) (lead : Trivia) (rest : List Import) :
    bareGroups (first.withLead lead :: rest) = bareGroups (first :: rest) := by
  rw [bareGroups, groups_eq_divide, bareGroups, groups_eq_divide]
  rcases divide_cons Import.lead rest with hown | ⟨g, gs, _, hjoins⟩
  · rw [hown, hown]
    rfl
  · rw [hjoins, hjoins]
    rfl

theorem joins_insertSorted {eol : String} (heol : Trivia.hasBlankLine eol = false)
    (hempty : Trivia.hasBlankLine (blankLine eol) = true) (new : Import) {imports : List Import}
    (hne : imports ≠ []) : Joins new.bare imports (insertSorted eol new imports) := by
  cases hbest : bestGroup? new.name (groups imports) with
  | none =>
    obtain ⟨first, rest, rfl⟩ := List.exists_cons_of_ne_nil hne
    have hstatic := bestGroup?_eq_none hbest
    refine .alone hne (fun i hi => ?_) ?_
    · rw [← flatten_groups (first :: rest), List.mem_flatten] at hi
      obtain ⟨g, hg, hi⟩ := hi
      exact hstatic g hg i hi
    · rw [bareGroups, groups_insertSorted_static hempty new hbest, List.map_cons]
      exact congrArg _ (bareGroups_withLead first _ rest)
  | some k =>
    obtain ⟨front, g, back, hgs, rfl, hmost⟩ := bestGroup?_eq_some hbest
    have hg : g ≠ [] := ne_nil_of_mem_groups (by rw [hgs]; simp)
    have hbefore : bareGroups imports =
        front.map (·.map Import.bare) ++ g.map Import.bare :: back.map (·.map Import.bare) := by
      rw [bareGroups, hgs, List.map_append, List.map_cons]
    have hlength := length_flatten_bareGroups imports
    rw [hbefore, List.flatten_append, List.flatten_cons, List.length_append, List.length_append] at hlength
    have hpos := List.length_pos_of_ne_nil hg
    rw [← List.length_map Import.bare] at hpos
    refine .group _ _ _ (positionIn new.name (g.map Import.bare)) hbefore ?_ hmost.bare
      ⟨by omega, by omega, positionIn_le _ _⟩ fun h => ?_
    · rw [bareGroups, groups_insertSorted heol new hbest, hgs, positionIn_bare]
      simp [List.modify_eq_take_cons_drop, map_bare_insertInto]
    · obtain ⟨hfront, hback⟩ := positionIn_between new.name h
      rw [← List.take_append_drop (positionIn new.name (g.map Import.bare)) (g.map Import.bare)] at h
      exact h.insert hfront hback

/-! ### Joining one after the other -/

/-- Imports of `names`, numbered from `next` on. -/
def fresh (next : NodeId) : List String → List Import
  | [] => []
  | name :: names => Import.single next "" name :: fresh (next + 1) names

/-- The imports `ys` are `xs` with imports of `names` put in one after the other. Each joins the imports that are
there already, or is the first. -/
inductive PutIn : NodeId → List Import → List String → List Import → Prop
  | done (next : NodeId) (xs : List Import) : PutIn next xs [] xs
  | first {next : NodeId} {name : String} {names : List String} {i : Import} {ys : List Import}
      (bare : i.bare = Import.single next "" name) (rest : PutIn (next + 1) [i] names ys) :
      PutIn next [] (name :: names) ys
  | join {next : NodeId} {name : String} {names : List String} {xs zs ys : List Import}
      (joins : Joins (Import.single next "" name) xs zs) (rest : PutIn (next + 1) zs names ys) :
      PutIn next xs (name :: names) ys

section Marks

variable {next : NodeId} {names : List String} {new : Import} {xs ys : List Import}

theorem Joins.inOrder (h : Joins new xs ys) (hxs : ∀ g ∈ bareGroups xs, InOrder g) :
    ∀ g ∈ bareGroups ys, InOrder g := by
  cases h with
  | group front g back place hbefore hafter hmost hbounds hordered =>
    rw [hbefore, List.forall_mem_append, List.forall_mem_cons] at hxs
    rw [hafter, List.forall_mem_append, List.forall_mem_cons]
    exact ⟨hxs.1, hordered hxs.2.1, hxs.2.2⟩
  | alone hne hstatic hafter =>
    rw [hafter, List.forall_mem_cons]
    exact ⟨inOrder_singleton new, hxs⟩

/-- **Groups in order stay in order.** -/
theorem PutIn.inOrder (h : PutIn next xs names ys) (hxs : ∀ g ∈ bareGroups xs, InOrder g) :
    ∀ g ∈ bareGroups ys, InOrder g := by
  induction h with
  | done => exact hxs
  | first hbare _ ih =>
    refine ih fun g hg => ?_
    rw [List.mem_singleton.mp hg]
    exact inOrder_singleton _
  | join hjoins _ ih => exact ih (hjoins.inOrder hxs)

/-- The marked imports of groups, without trivia. -/
def markedOf (gs : List (List (Import × Bool))) : List Import := (gs.flatten.filter (·.2)).map (·.1.bare)

theorem Joins.exists_marks (h : Joins new xs ys) {gs : List (List (Import × Bool))}
    (hgs : gs.map (·.map (·.1.bare)) = bareGroups xs) (hnew : new.bare = new) :
    ∃ hs : List (List (Import × Bool)), hs.map (·.map (·.1.bare)) = bareGroups ys ∧
      unmarked hs = unmarked gs ∧ (markedOf hs).Perm (new :: markedOf gs) := by
  cases h with
  | group front g back place hbefore hafter hmost hbounds hordered =>
    rw [hbefore] at hgs
    obtain ⟨front, rest, rfl, rfl, hrest⟩ := List.map_eq_append_iff.mp hgs
    obtain ⟨g, back, rfl, rfl, rfl⟩ := List.map_eq_cons_iff.mp hrest
    refine ⟨front ++ (g.take place ++ (new, true) :: g.drop place) :: back, ?_, ?_, ?_⟩
    · rw [hafter, List.map_append, List.map_cons, List.map_append, List.map_cons, hnew, List.map_take,
        List.map_drop]
    · have hsame : (g.take place ++ (new, true) :: g.drop place).filter (!·.2) = g.filter (!·.2) := by
        rw [List.filter_append, List.filter_cons_of_neg (by simp), ← List.filter_append,
          List.take_append_drop]
      rw [unmarked_append, unmarked_cons _ back, unmarked_congr (congrArg _ hsame), ← unmarked_cons,
        unmarked_append]
    · have hperm : (front ++ (g.take place ++ (new, true) :: g.drop place) :: back).flatten.Perm
          ((new, true) :: (front ++ g :: back).flatten) := by
        conv_rhs => rw [← g.take_append_drop place]
        simp only [List.flatten_append, List.flatten_cons, List.append_assoc, List.cons_append]
        rw [← List.append_assoc, ← List.append_assoc front.flatten]
        exact List.perm_middle
      have hmarked := (hperm.filter (·.2)).map (·.1.bare)
      rwa [List.filter_cons_of_pos rfl, List.map_cons, hnew] at hmarked
  | alone hne hstatic hafter =>
    refine ⟨[(new, true)] :: gs, ?_, ?_, ?_⟩
    · rw [hafter, List.map_cons, hgs, List.map_singleton, hnew]
    · rw [unmarked_cons]
      rfl
    · rw [markedOf, List.flatten_cons, List.singleton_append, List.filter_cons_of_pos rfl, List.map_cons,
        hnew]
      exact List.Perm.refl _

/-- **Putting imports in leaves the others in their groups.** -/
theorem PutIn.exists_marks (h : PutIn next xs names ys) {gs : List (List (Import × Bool))}
    (hgs : gs.map (·.map (·.1.bare)) = bareGroups xs) :
    ∃ hs : List (List (Import × Bool)), hs.map (·.map (·.1.bare)) = bareGroups ys ∧
      unmarked hs = unmarked gs ∧ (markedOf hs).Perm (fresh next names ++ markedOf gs) := by
  induction h generalizing gs with
  | done => exact ⟨gs, hgs, rfl, List.Perm.refl _⟩
  | @first next name names i ys hbare _ ih =>
    obtain rfl : gs = [] := List.map_eq_nil_iff.mp hgs
    obtain ⟨hs, hhs, hunmarked, hmarked⟩ := @ih [[(i, true)]] rfl
    refine ⟨hs, hhs, hunmarked, hmarked.trans ?_⟩
    have hone : markedOf [[(i, true)]] = [Import.single next "" name] := congrArg (fun j => [j]) hbare
    rw [hone, fresh]
    exact List.perm_append_comm.trans (List.Perm.of_eq (List.append_nil _).symm)
  | join hjoins _ ih =>
    obtain ⟨between, hbetween, hunmarked, hmarked⟩ := hjoins.exists_marks hgs rfl
    obtain ⟨hs, hhs, hunmarked', hmarked'⟩ := ih hbetween
    refine ⟨hs, hhs, hunmarked'.trans hunmarked, hmarked'.trans ?_⟩
    exact (hmarked.append_left _).trans List.perm_middle

end Marks

/-! ### What is carried out -/

theorem Placement.putIn_add {eol : String} (heol : Trivia.hasBlankLine eol = false)
    (hempty : Trivia.hasBlankLine (blankLine eol) = true) (hasPackage : Bool) (p : Placement)
    (names : List String) :
    PutIn p.nextId p.imports names (names.foldl (Placement.add eol hasPackage) p).imports := by
  induction names generalizing p with
  | nil => exact .done _ _
  | cons name names ih =>
    have hrest := ih (p.add eol hasPackage name)
    obtain ⟨imports, leftover, firstLead, nextId⟩ := p
    cases imports with
    | cons i is =>
      exact .join (joins_insertSorted heol hempty (Import.single nextId "" name) (List.cons_ne_nil i is)) hrest
    | nil =>
      cases leftover with
      | some lead => exact .first rfl hrest
      | none =>
        cases hasPackage with
        | true => exact .first rfl hrest
        | false => cases firstLead <;> exact .first rfl hrest

theorem hasBlankLine_lineBreak (m : Module) : Trivia.hasBlankLine (lineBreak m) = false := by
  rw [lineBreak]
  split <;> decide

theorem hasBlankLine_blankLine (m : Module) : Trivia.hasBlankLine (blankLine (lineBreak m)) = true := by
  rw [blankLine, lineBreak]
  split <;> decide

theorem putIn_carryOut (m : Module) (marked : List (Import × Bool)) (names : List String) (nextId : NodeId) :
    PutIn nextId (keep false none marked).1 names (carryOut m marked names nextId).imports := by
  rw [carryOut_imports]
  exact Placement.putIn_add (hasBlankLine_lineBreak m) (hasBlankLine_blankLine m) _ ⟨_, _, _, nextId⟩ names

end Migration.Imports
