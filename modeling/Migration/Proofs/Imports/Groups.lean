import Mathlib.Data.List.SplitBy
import Migration.Proofs.Imports.Leads

/-!
# Groups of imports

Imports stand in groups, divided at the empty lines in front of them. The same holds of imports with marks
on them, so that one can ask in which groups the unmarked ones stand (`unmarked`).

Removing marked imports leaves the unmarked ones divided as they were (`groups_keep`): the first of a group
hands its empty line on when it goes. Putting an import in changes one group, or makes a new one in front
of all others (`groups_insertSorted`).
-/

namespace Migration.Imports

/-! ### Dividing at empty lines -/

section Divide

variable {α β : Type}

/-- The elements of a list, divided in front of those that stand behind an empty line. -/
def divide (lead : α → Trivia) (xs : List α) : List (List α) :=
  xs.splitBy fun _ x => !Trivia.hasBlankLine (lead x)

/-- The trivia of divided elements: no part is empty, and there are empty lines in front of the parts, the
first one apart, and nowhere else. -/
structure Divided (parts : List (List Trivia)) : Prop where
  ne_nil : ∀ p ∈ parts, p ≠ []
  joined : ∀ p ∈ parts, ∀ t ∈ p.tail, Trivia.hasBlankLine t = false
  parted : ∀ p ∈ parts.tail, ∀ t ∈ p.head?, Trivia.hasBlankLine t = true

theorem isChain_right {p : α → Prop} {xs : List α} :
    xs.IsChain (fun _ x => p x) ↔ ∀ x ∈ xs.tail, p x := by
  cases xs with
  | nil => simp
  | cons x xs =>
    induction xs generalizing x with
    | nil => simp
    | cons y xs ih => rw [List.isChain_cons_cons, ih, List.tail_cons, List.tail_cons, List.forall_mem_cons]

variable {lead : α → Trivia} {xs : List α} {gs : List (List α)}

/-- **A list is divided in one way only.** -/
theorem divide_eq_iff : divide lead xs = gs ↔ xs = gs.flatten ∧ Divided (gs.map (·.map lead)) := by
  have hjoined (g : List α) : g.IsChain (fun _ x => (!Trivia.hasBlankLine (lead x)) = true) ↔
      ∀ t ∈ (g.map lead).tail, Trivia.hasBlankLine t = false := by
    rw [isChain_right, ← List.map_tail, List.forall_mem_map]
    simp only [Bool.not_eq_true']
  have hparted (hne : [] ∉ gs) : (gs.IsChain fun g h => ∃ (_ : g ≠ []) (hh : h ≠ []),
        (!Trivia.hasBlankLine (lead (h.head hh))) = false) ↔
      ∀ p ∈ (gs.map (·.map lead)).tail, ∀ t ∈ p.head?, Trivia.hasBlankLine t = true := by
    rw [← List.map_tail, List.forall_mem_map, ← isChain_right]
    refine List.IsChain.iff_of_mem_imp fun g h hg hh => ?_
    have hg : g ≠ [] := fun hnil => hne (hnil ▸ hg)
    obtain ⟨x, h, rfl⟩ := List.exists_cons_of_ne_nil fun hnil => hne (hnil ▸ hh)
    simp [hg]
  rw [divide, List.splitBy_eq_iff]
  refine and_congr_right fun _ => ⟨fun ⟨hne, hin, hout⟩ => ⟨?_, ?_, (hparted hne).mp hout⟩, fun h => ?_⟩
  · refine List.forall_mem_map.mpr fun g hg hnil => hne ?_
    rwa [List.map_eq_nil_iff.mp hnil] at hg
  · exact List.forall_mem_map.mpr fun g hg => (hjoined g).mp (hin g hg)
  · have hne : [] ∉ gs := fun hmem => h.ne_nil [] (List.mem_map.mpr ⟨[], hmem, rfl⟩) rfl
    exact ⟨hne, fun g hg => (hjoined g).mpr (h.joined _ (List.mem_map_of_mem hg)),
      (hparted hne).mpr h.parted⟩

theorem flatten_divide (lead : α → Trivia) (xs : List α) : (divide lead xs).flatten = xs :=
  List.flatten_splitBy _ xs

theorem divided_divide (lead : α → Trivia) (xs : List α) : Divided ((divide lead xs).map (·.map lead)) :=
  (divide_eq_iff.mp rfl).2

/-- Dividing looks at trivia only. -/
theorem divide_map {f : β → α} (xs : List β) :
    divide lead (xs.map f) = (divide (fun x => lead (f x)) xs).map (·.map f) := by
  refine divide_eq_iff.mpr ⟨?_, ?_⟩
  · rw [← List.map_flatten, flatten_divide]
  · have hdivided := divided_divide (fun x => lead (f x)) xs
    simp only [List.map_map, Function.comp_def] at hdivided ⊢
    exact hdivided

theorem divide_cons_of_blank (x : α) {y : α} (h : Trivia.hasBlankLine (lead y) = true) :
    divide lead (x :: y :: xs) = [x] :: divide lead (y :: xs) :=
  List.splitBy_append_cons (l := [x]) xs (by simpa using h)

variable (lead) (xs) in
theorem divide_cons_of_joined {y : α} (h : Trivia.hasBlankLine (lead y) = false) :
    ∃ g gs, divide lead (y :: xs) = g :: gs ∧ ∀ x, divide lead (x :: y :: xs) = (x :: g) :: gs := by
  obtain ⟨hflatten, hdivided⟩ := divide_eq_iff.mp (rfl : divide lead (y :: xs) = _)
  generalize divide lead (y :: xs) = parts at hflatten hdivided
  match parts with
  | [] => cases hflatten
  | [] :: _ => exact absurd rfl (hdivided.ne_nil [] (by simp))
  | (z :: g) :: gs =>
    obtain ⟨rfl, _⟩ := List.cons.inj hflatten
    refine ⟨y :: g, gs, rfl, fun x => divide_eq_iff.mpr ⟨by rw [hflatten]; rfl, ?_, ?_, hdivided.parted⟩⟩
    · have hne := hdivided.ne_nil
      simp only [List.map_cons, List.forall_mem_cons] at hne ⊢
      exact ⟨List.cons_ne_nil _ _, hne.2⟩
    · have hjoined := hdivided.joined
      simp only [List.map_cons, List.forall_mem_cons, List.tail_cons] at hjoined ⊢
      exact ⟨⟨h, hjoined.1⟩, hjoined.2⟩

variable (lead) (xs) in
/-- What is put in front of a list is a part of its own, or joins the first part; its own trivia have no
part in that. -/
theorem divide_cons : (∀ x, divide lead (x :: xs) = [x] :: divide lead xs) ∨
    ∃ g gs, divide lead xs = g :: gs ∧ ∀ x, divide lead (x :: xs) = (x :: g) :: gs := by
  cases xs with
  | nil => exact .inl fun _ => rfl
  | cons y xs =>
    cases hblank : Trivia.hasBlankLine (lead y) with
    | true => exact .inl fun x => divide_cons_of_blank x hblank
    | false => exact .inr (divide_cons_of_joined lead xs hblank)

end Divide

theorem groups_eq_divide (imports : List Import) : groups imports = divide Import.lead imports := by
  induction imports with
  | nil => rfl
  | cons i rest ih =>
    cases rest with
    | nil => rfl
    | cons j rest =>
      obtain ⟨g, gs, hgs⟩ := List.exists_cons_of_ne_nil (groups_cons_ne_nil j rest)
      have hstep : groups (i :: j :: rest) =
          if Trivia.hasBlankLine j.lead then [i] :: g :: gs else (i :: g) :: gs := by
        conv_lhs => unfold groups
        simp only [hgs]
      rw [hstep]
      rw [hgs] at ih
      cases hblank : Trivia.hasBlankLine j.lead with
      | true => rw [divide_cons_of_blank i hblank, ← ih, if_pos rfl]
      | false =>
        obtain ⟨g', gs', hwithout, hwith⟩ := divide_cons_of_joined Import.lead rest hblank
        cases ih.trans hwithout
        rw [hwith, if_neg Bool.false_ne_true]

/-! ### Unmarked imports -/

/-- What is left of groups without their marked imports and without trivia; a group of which nothing is
left goes. -/
def unmarked (gs : List (List (Import × Bool))) : List (List Import) :=
  (gs.map fun g => (g.filter (!·.2)).map (·.1.bare)).filter (!·.isEmpty)

/-- Imports with marks on them, in their groups. -/
def markedGroups (marked : List (Import × Bool)) : List (List (Import × Bool)) :=
  divide (fun q => q.1.lead) marked

theorem unmarked_append (gs hs : List (List (Import × Bool))) :
    unmarked (gs ++ hs) = unmarked gs ++ unmarked hs := by
  rw [unmarked, List.map_append, List.filter_append, unmarked, unmarked]

theorem unmarked_cons (g : List (Import × Bool)) (gs : List (List (Import × Bool))) :
    unmarked (g :: gs) = unmarked [g] ++ unmarked gs := unmarked_append [g] gs

theorem unmarked_congr {g h : List (Import × Bool)}
    (hsame : (g.filter (!·.2)).map (·.1.bare) = (h.filter (!·.2)).map (·.1.bare)) :
    unmarked [g] = unmarked [h] := by
  simp only [unmarked, List.map_cons, List.map_nil, hsame]

theorem flatten_unmarked (gs : List (List (Import × Bool))) :
    (unmarked gs).flatten = (gs.flatten.filter (!·.2)).map (·.1.bare) := by
  induction gs with
  | nil => rfl
  | cons g gs ih =>
    rw [unmarked_cons, List.flatten_append, ih, List.flatten_cons, List.filter_append, List.map_append]
    congr 1
    cases h : (g.filter (!·.2)).map (·.1.bare) with
    | nil => simp [unmarked, h]
    | cons i is => simp [unmarked, h]

section Removing

variable {i : Import} {rest : List (Import × Bool)}

theorem unmarked_kept (i : Import) (g : List (Import × Bool)) :
    unmarked [(i, false) :: g] = [i.bare :: (g.filter (!·.2)).map (·.1.bare)] := rfl

/-- The trivia in front of all imports do not divide them. -/
theorem unmarked_withLead (lead : Trivia) :
    unmarked (markedGroups ((i.withLead lead, false) :: rest)) =
      unmarked (markedGroups ((i, false) :: rest)) := by
  rcases divide_cons (fun q : Import × Bool => q.1.lead) rest with hown | ⟨g, gs, _, hjoins⟩
  · rw [markedGroups, hown, unmarked_cons, markedGroups, hown, unmarked_cons _ (divide _ rest)]
    rfl
  · rw [markedGroups, hjoins, unmarked_cons, markedGroups, hjoins, unmarked_cons _ gs]
    rfl

/-- A marked import in front of all others has no influence on them. -/
theorem unmarked_removed : unmarked (markedGroups ((i, true) :: rest)) = unmarked (markedGroups rest) := by
  rcases divide_cons (fun q : Import × Bool => q.1.lead) rest with hown | ⟨g, gs, hrest, hjoins⟩
  · rw [markedGroups, hown, unmarked_cons]
    rfl
  · rw [markedGroups, hjoins, unmarked_cons, markedGroups, hrest, unmarked_cons g]
    rfl

/-- A marked import without an empty line in front of it has none on the imports around it. -/
theorem unmarked_removed_joined {x : Import} (hblank : Trivia.hasBlankLine i.lead = false) :
    unmarked (markedGroups ((x, false) :: (i, true) :: rest)) =
      unmarked (markedGroups ((x, false) :: rest)) := by
  obtain ⟨g, gs, hwithout, hwith⟩ := divide_cons_of_joined (fun q : Import × Bool => q.1.lead) rest
    (y := (i, true)) hblank
  rw [markedGroups, hwith, unmarked_cons, unmarked_kept, markedGroups]
  rcases divide_cons (fun q : Import × Bool => q.1.lead) rest with hown | ⟨g', gs', _, hjoins⟩
  · rw [hown] at hwithout ⊢
    cases hwithout
    rw [unmarked_cons _ (divide _ rest)]
    rfl
  · rw [hjoins] at hwithout ⊢
    cases hwithout
    rw [unmarked_cons _ gs]
    rfl

/-- A marked import behind an empty line divides the imports around it. -/
theorem unmarked_removed_parted {x : Import} (hblank : Trivia.hasBlankLine i.lead = true) :
    unmarked (markedGroups ((x, false) :: (i, true) :: rest)) = [x.bare] :: unmarked (markedGroups rest) := by
  have hparts : markedGroups ((x, false) :: (i, true) :: rest) =
      [(x, false)] :: markedGroups ((i, true) :: rest) := divide_cons_of_blank (x, false) hblank
  rw [hparts, unmarked_cons, unmarked_removed]
  rfl

/-- Two imports in a row that are both kept. -/
theorem groups_cons_kept (x : Import) {y : Import} {ys : List Import}
    (h : (groups (y :: ys)).map (·.map Import.bare) = unmarked (markedGroups ((y, false) :: rest))) :
    (groups (x :: y :: ys)).map (·.map Import.bare) =
      unmarked (markedGroups ((x, false) :: (y, false) :: rest)) := by
  rw [groups_eq_divide] at h ⊢
  cases hblank : Trivia.hasBlankLine y.lead with
  | true =>
    have hmarked : markedGroups ((x, false) :: (y, false) :: rest) =
        [(x, false)] :: markedGroups ((y, false) :: rest) := divide_cons_of_blank (x, false) hblank
    rw [divide_cons_of_blank x hblank, List.map_cons, h, hmarked, unmarked_cons [(x, false)]]
    rfl
  | false =>
    obtain ⟨g, gs, hys, hxs⟩ := divide_cons_of_joined Import.lead ys hblank
    obtain ⟨k, ks, hrest, hwith⟩ := divide_cons_of_joined (fun q : Import × Bool => q.1.lead) rest
      (y := (y, false)) hblank
    obtain ⟨k', rfl⟩ : ∃ k', k = (y, false) :: k' := by
      rcases divide_cons (fun q : Import × Bool => q.1.lead) rest with hown | ⟨_, _, _, hjoins⟩
      · rw [hown] at hrest
        cases hrest
        exact ⟨_, rfl⟩
      · rw [hjoins] at hrest
        cases hrest
        exact ⟨_, rfl⟩
    rw [hys, markedGroups, hrest, unmarked_cons _ ks, unmarked_kept, List.map_cons] at h
    obtain ⟨hg, hgs⟩ := List.cons.inj h
    rw [hxs, markedGroups, hwith, unmarked_cons _ ks, unmarked_kept, List.map_cons, List.map_cons, hg, hgs]
    rfl

/-- The imports that are kept behind `x`, which is kept. Trivia that are handed on hold an empty line then,
because the list was opened before. -/
theorem groups_keep_started (x : Import) (carry : Option Trivia)
    (hcarry : ∀ lead ∈ carry, Trivia.hasBlankLine lead = true) (marked : List (Import × Bool)) :
    (groups (x :: (keep true carry marked).1)).map (·.map Import.bare) =
      if carry.isSome then [x.bare] :: unmarked (markedGroups marked)
      else unmarked (markedGroups ((x, false) :: marked)) := by
  induction marked generalizing x carry with
  | nil => cases carry <;> rfl
  | cons q marked ih =>
    obtain ⟨i, removed⟩ := q
    cases removed with
    | true =>
      cases carry with
      | some lead =>
        have hopens : keep true (some lead) ((i, true) :: marked) = keep true (some lead) marked := by
          simp [keep]
        rw [hopens, ih x _ hcarry, unmarked_removed]
        rfl
      | none =>
        cases hblank : Trivia.hasBlankLine i.lead with
        | true =>
          have hopens : keep true none ((i, true) :: marked) = keep true (some i.lead) marked := by
            simp [keep, hblank]
          have hlead : ∀ lead ∈ some i.lead, Trivia.hasBlankLine lead = true := by simpa using hblank
          rw [hopens, ih x _ hlead, unmarked_removed_parted hblank]
          rfl
        | false =>
          have hjoined : keep true none ((i, true) :: marked) = keep true none marked := by
            simp [keep, hblank]
          rw [hjoined, ih x _ hcarry, unmarked_removed_joined hblank]
          rfl
    | false =>
      have hkeep : (keep true carry ((i, false) :: marked)).1 =
          i.withLead (carry.getD i.lead) :: (keep true none marked).1 := by rw [keep]
      have hrest := ih (i.withLead (carry.getD i.lead)) none (by simp)
      rw [Option.isSome_none, if_neg Bool.false_ne_true, unmarked_withLead] at hrest
      rw [hkeep]
      cases carry with
      | none => exact groups_cons_kept x hrest
      | some lead =>
        have hblank : Trivia.hasBlankLine (i.withLead lead).lead = true := hcarry lead rfl
        rw [groups_eq_divide] at hrest ⊢
        rw [Option.getD_some] at hrest ⊢
        rw [divide_cons_of_blank x hblank, List.map_cons, hrest]
        rfl

/-- **Removing imports leaves those that are kept divided as they were.** -/
theorem groups_keep (carry : Option Trivia) (marked : List (Import × Bool)) :
    (groups (keep false carry marked).1).map (·.map Import.bare) = unmarked (markedGroups marked) := by
  induction marked generalizing carry with
  | nil => rfl
  | cons q marked ih =>
    obtain ⟨i, removed⟩ := q
    cases removed with
    | true =>
      rw [keep, ih, unmarked_removed]
    | false =>
      have hkept := groups_keep_started (i.withLead (carry.getD i.lead)) none (by simp) marked
      rw [keep]
      exact hkept.trans (unmarked_withLead _)

end Removing

/-! ### Putting an import in -/

section Inserting

variable {eol : String} (heol : Trivia.hasBlankLine eol = false)
  (hempty : Trivia.hasBlankLine (blankLine eol) = true) (new : Import)

/-- Trivia of one part with more put between them, behind the first. -/
theorem Divided.insert {front back : List (List Trivia)} {as bs : List Trivia} {t : Trivia} (has : as ≠ [])
    (ht : Trivia.hasBlankLine t = false) (h : Divided (front ++ (as ++ bs) :: back)) :
    Divided (front ++ (as ++ t :: bs) :: back) := by
  obtain ⟨a, as, rfl⟩ := List.exists_cons_of_ne_nil has
  obtain ⟨hne, hjoined, hparted⟩ := h
  simp only [List.forall_mem_append, List.forall_mem_cons, List.cons_append, List.tail_cons] at hne hjoined
  refine ⟨?_, ?_, ?_⟩
  · simp only [List.forall_mem_append, List.forall_mem_cons]
    exact ⟨hne.1, by simp, hne.2.2⟩
  · simp only [List.forall_mem_append, List.forall_mem_cons, List.cons_append, List.tail_cons]
    exact ⟨hjoined.1, ⟨hjoined.2.1.1, ht, hjoined.2.1.2⟩, hjoined.2.2⟩
  · cases front with
    | nil => exact hparted
    | cons p front =>
      simp only [List.cons_append, List.tail_cons, List.forall_mem_append, List.forall_mem_cons,
        List.head?_cons] at hparted ⊢
      exact hparted

include heol in
/-- **An import that is put into a group is in that group afterwards**, and in no other way are the groups
changed. -/
theorem groups_insertSorted {imports : List Import} {k : Nat}
    (hk : bestGroup? new.name (groups imports) = some k) :
    groups (insertSorted eol new imports) = (groups imports).modify k (insertInto eol new) := by
  have hlt := bestGroup?_lt hk
  have hne := ne_nil_of_mem_groups (List.getElem_mem hlt)
  have hdivided := divided_divide Import.lead imports
  rw [← groups_eq_divide] at hdivided
  rw [groups_eq_divide (insertSorted eol new imports)]
  refine divide_eq_iff.mpr ⟨by simp only [insertSorted, hk], ?_⟩
  generalize groups imports = gs at *
  obtain ⟨as, bs, hgroup, has, hinto⟩ := exists_leads_insertInto eol new hne
  rw [← gs.take_append_drop k, List.drop_eq_getElem_cons hlt, List.map_append, List.map_cons] at hdivided
  rw [List.modify_eq_take_cons_drop hlt, List.map_append, List.map_cons, hinto]
  rw [hgroup] at hdivided
  exact Divided.insert has heol hdivided

include hempty in
/-- An import that is put in front of static ones is a group of its own. -/
theorem groups_insertSorted_static {first : Import} {rest : List Import}
    (hnone : bestGroup? new.name (groups (first :: rest)) = none) :
    groups (insertSorted eol new (first :: rest)) =
      [new.withLead first.lead] :: groups (first.withLead (blankLine eol) :: rest) := by
  simp only [insertSorted, hnone]
  rw [groups_eq_divide, groups_eq_divide]
  exact divide_cons_of_blank _ hempty

end Inserting

end Migration.Imports
