import Mathlib.Data.List.Induction
import Migration.Proofs.Imports.Reconcile

/-!
# Where trivia go

Removing and inserting imports moves the trivia in front of them. A removed import hands its trivia on
when it opens the list or a group, and then those of the next import that is kept have no place any more
(`HandsOn`). Nothing else is lost: a new import takes over the trivia of another one or brings a line
break of its own (`exists_lead_insertSorted`), and what stands in front of the first import stays there
(`exists_head_insertSorted`).

The first import of a module without a package divides the trivia of the first type at their last empty
line (`splitHeader_append`). So imports come with a line break wherever they are put, but for a single one
that takes the place of all others (`carryOut_hasBreak`).
-/

namespace Migration.Imports

/-! ### Removing -/

theorem keep_append (started : Bool) (carry : Option Trivia) (before rest : List (Import × Bool)) :
    keep started carry (before ++ rest) =
      ((keep started carry before).1
          ++ (keep (started || before.any (!·.2)) (keep started carry before).2 rest).1,
        (keep (started || before.any (!·.2)) (keep started carry before).2 rest).2) := by
  induction before generalizing started carry with
  | nil => simp [keep]
  | cons q before ih =>
    obtain ⟨i, removed⟩ := q
    cases removed <;> simp [keep, ih]

/-- Behind these imports there is trivia to take over: the last of them are removed, and the first of
those opens the list or a group. -/
def HandsOn (before : List (Import × Bool)) : Prop :=
  ∃ front q run, before = front ++ q :: run ∧ (∀ r ∈ q :: run, r.2 = true) ∧
    ((∀ r ∈ front, r.2 = true) ∨ Trivia.hasBlankLine q.1.lead = true)

theorem HandsOn.exists_removed {before : List (Import × Bool)} (h : HandsOn before) :
    ∃ q ∈ before, q.2 = true := by
  obtain ⟨front, q, run, rfl, hrun, _⟩ := h
  exact ⟨q, by simp, hrun q List.mem_cons_self⟩

theorem not_handsOn_nil : ¬ HandsOn [] := by
  rintro ⟨front, q, run, h, _⟩
  simp at h

theorem handsOn_concat {before : List (Import × Bool)} {q : Import × Bool} :
    HandsOn (before ++ [q]) ↔ q.2 = true ∧
      ((∀ r ∈ before, r.2 = true) ∨ Trivia.hasBlankLine q.1.lead = true ∨ HandsOn before) := by
  constructor
  · rintro ⟨front, first, run, h, hrun, hopens⟩
    -- the run ends with `q`, and it may be all of the run
    rcases List.eq_nil_or_concat run with rfl | ⟨run, last, rfl⟩
    · obtain ⟨rfl, heq⟩ := List.append_inj' h rfl
      cases heq
      exact ⟨hrun _ List.mem_cons_self, hopens.imp_right .inl⟩
    · rw [List.concat_eq_append, ← List.cons_append, ← List.append_assoc] at h
      obtain ⟨rfl, heq⟩ := List.append_inj' h rfl
      cases heq
      refine ⟨hrun q (by simp), .inr (.inr ⟨front, first, run, rfl, fun r hr => hrun r ?_, hopens⟩)⟩
      rw [List.concat_eq_append, ← List.cons_append]
      exact List.mem_append_left _ hr
  · rintro ⟨hq, hall | hblank | ⟨front, first, run, rfl, hrun, hopens⟩⟩
    · exact ⟨before, q, [], rfl, by simpa using hq, .inl hall⟩
    · exact ⟨before, q, [], rfl, by simpa using hq, .inr hblank⟩
    · refine ⟨front, first, run ++ [q], by simp, fun r hr => ?_, hopens⟩
      rw [← List.cons_append] at hr
      rcases List.mem_append.mp hr with hr | hr
      · exact hrun r hr
      · rw [List.mem_singleton.mp hr]
        exact hq

/-- The trivia to take over are those that removing has left. -/
theorem handsOn_iff {before : List (Import × Bool)} :
    HandsOn before ↔ (keep false none before).2.isSome = true := by
  induction before using List.reverseRecOn with
  | nil => simp [keep, not_handsOn_nil]
  | append_singleton before q ih =>
    rw [handsOn_concat, ih, keep_append]
    obtain ⟨i, removed⟩ := q
    cases removed with
    | false => simp [keep]
    | true =>
      have hstarted : (∀ r ∈ before, r.2 = true) ↔ before.any (!·.2) = false := by simp
      cases hleft : (keep false none before).2 <;>
        by_cases hopens : (!before.any (!·.2) || Trivia.hasBlankLine i.lead) = true <;>
        simp_all [keep]

/-- An import that is kept keeps its trivia where there is none to take over. -/
theorem exists_lead_keep {before : List (Import × Bool)} (i : Import) (after : List (Import × Bool))
    (h : ¬ HandsOn before) :
    ∃ j ∈ (keep false none (before ++ (i, false) :: after)).1, j.lead = i.lead := by
  rw [handsOn_iff, Option.not_isSome_iff_eq_none] at h
  rw [keep_append, h]
  exact ⟨i.withLead i.lead, List.mem_append_right _ List.mem_cons_self, rfl⟩

/-- An import that is kept has no influence by its trivia where there is some to take over. -/
theorem keep_withLead {before after : List (Import × Bool)} {i : Import} (h : HandsOn before)
    (lead : Trivia) : keep false none (before ++ (i.withLead lead, false) :: after) =
      keep false none (before ++ (i, false) :: after) := by
  obtain ⟨carry, hcarry⟩ := Option.isSome_iff_exists.mp (handsOn_iff.mp h)
  rw [keep_append, keep_append, hcarry]
  rfl

theorem keep_eq_nil_iff {started : Bool} {carry : Option Trivia} {marked : List (Import × Bool)} :
    (keep started carry marked).1 = [] ↔ ∀ q ∈ marked, q.2 = true := by
  rw [← List.map_eq_nil_iff (f := Import.bare), map_bare_keep, List.map_eq_nil_iff,
    List.filter_eq_nil_iff]
  simp

/-- Where no import is kept, trivia are left exactly if there were imports. -/
theorem isSome_left_of_keep_eq_nil {marked : List (Import × Bool)}
    (h : (keep false none marked).1 = []) :
    (keep false none marked).2.isSome = true ↔ marked ≠ [] := by
  rw [← handsOn_iff]
  cases marked with
  | nil => simp [not_handsOn_nil]
  | cons q rest =>
    exact iff_of_true ⟨[], q, rest, rfl, keep_eq_nil_iff.mp h, .inl (List.forall_mem_nil _)⟩ (by simp)

/-! ### Inserting -/

theorem ne_nil_of_mem_groups {imports g : List Import} (hg : g ∈ groups imports) : g ≠ [] := by
  induction imports with
  | nil => cases hg
  | cons i rest ih =>
    unfold groups at hg
    split at hg
    case h_1 next tail first more hgroups =>
      rw [hgroups] at ih
      split at hg
      · rcases List.mem_cons.mp hg with rfl | hg
        · exact List.cons_ne_nil _ _
        · exact ih hg
      · rcases List.mem_cons.mp hg with rfl | hg
        · exact List.cons_ne_nil _ _
        · exact ih (List.mem_cons_of_mem _ hg)
    case h_2 =>
      rw [List.mem_singleton.mp hg]
      exact List.cons_ne_nil _ _

section

variable (eol : String) (new : Import)

theorem exists_leads_insertInto {group : List Import} (hne : group ≠ []) :
    ∃ as bs, group.map (·.lead) = as ++ bs ∧ as ≠ []
      ∧ (insertInto eol new group).map (·.lead) = as ++ eol :: bs := by
  cases hk : positionIn new.name group with
  | zero =>
    cases group with
    | nil => exact absurd rfl hne
    | cons first rest =>
      simp only [insertInto, hk]
      exact ⟨[first.lead], rest.map (·.lead), rfl, List.cons_ne_nil _ _, rfl⟩
  | succ k =>
    simp only [insertInto, hk]
    refine ⟨(group.take (k + 1)).map (·.lead), (group.drop (k + 1)).map (·.lead), ?_, by simpa using hne, ?_⟩
    · rw [← List.map_append, List.take_append_drop]
    · rw [List.map_append, List.map_cons]
      rfl

/-- **No trivia get lost when an import is put in**: a line break or an empty line is put between those
of two imports, or behind the last. -/
theorem exists_leads_insertSorted {imports : List Import} (hne : imports ≠ []) :
    ∃ as bs, imports.map (·.lead) = as ++ bs ∧ as ≠ [] ∧ ∃ x, (x = eol ∨ x = blankLine eol)
      ∧ (insertSorted eol new imports).map (·.lead) = as ++ x :: bs := by
  cases hk : bestGroup? new.name (groups imports) with
  | none =>
    cases imports with
    | nil => exact absurd rfl hne
    | cons first rest =>
      simp only [insertSorted, hk]
      exact ⟨[first.lead], rest.map (·.lead), rfl, List.cons_ne_nil _ _, _, .inr rfl, rfl⟩
  | some k =>
    simp only [insertSorted, hk]
    have hlt := bestGroup?_lt hk
    obtain ⟨as, bs, hgroup, has, hinto⟩ :=
      exists_leads_insertInto eol new (ne_nil_of_mem_groups (List.getElem_mem hlt))
    obtain ⟨front, back, hbefore, hafter⟩ := map_flatten_modify hlt hgroup hinto
    rw [flatten_groups] at hbefore
    exact ⟨front ++ as, bs ++ back, hbefore, by simp [has], eol, .inl rfl, hafter⟩

theorem exists_lead_insertSorted {imports : List Import} {i : Import} (hi : i ∈ imports) :
    ∃ j ∈ insertSorted eol new imports, j.lead = i.lead := by
  obtain ⟨as, bs, hbefore, _, x, _, hafter⟩ :=
    exists_leads_insertSorted eol new (List.ne_nil_of_mem hi)
  have hmem := List.mem_map_of_mem (f := (·.lead)) hi
  rw [hbefore] at hmem
  rw [← List.mem_map, hafter]
  simp only [List.mem_append, List.mem_cons] at hmem ⊢
  exact hmem.imp_right .inr

/-- What stands in front of the imports stays there. -/
theorem exists_head_insertSorted (first : Import) (rest : List Import) :
    ∃ i is, insertSorted eol new (first :: rest) = i :: is ∧ i.lead = first.lead := by
  obtain ⟨as, bs, hbefore, has, x, _, hafter⟩ :=
    exists_leads_insertSorted eol new (List.cons_ne_nil first rest)
  obtain ⟨lead, as, rfl⟩ := List.exists_cons_of_ne_nil has
  obtain ⟨i, is, himports, rfl, _⟩ := List.map_eq_cons_iff.mp hafter
  exact ⟨i, is, himports, (List.cons.inj hbefore).1.symm⟩

theorem tail_leads_insertSorted (first : Import) (rest : List Import) :
    ∀ i ∈ (insertSorted eol new (first :: rest)).tail,
      (i.lead = eol ∨ i.lead = blankLine eol) ∨ ∃ j ∈ rest, j.lead = i.lead := by
  obtain ⟨as, bs, hbefore, has, x, hx, hafter⟩ :=
    exists_leads_insertSorted eol new (List.cons_ne_nil first rest)
  obtain ⟨lead, as, rfl⟩ := List.exists_cons_of_ne_nil has
  obtain ⟨i, is, himports, _, his⟩ := List.map_eq_cons_iff.mp hafter
  intro j hj
  rw [himports, List.tail_cons] at hj
  have hmem := List.mem_map_of_mem (f := (·.lead)) hj
  rw [his, List.append_eq, List.mem_append, List.mem_cons] at hmem
  rw [← List.mem_map, (List.cons.inj hbefore).2, List.append_eq, List.mem_append]
  rcases hmem with hmem | rfl | hmem
  · exact .inr (.inl hmem)
  · exact .inl hx
  · exact .inr (.inr hmem)

end

/-! ### The header of a file -/

theorem splitAfterLast_append {sep text before after : List Char}
    (h : splitAfterLast sep text = some (before, after)) : text = before ++ after ∧ sep <:+ before := by
  induction text generalizing before with
  | nil => cases h
  | cons c cs ih =>
    unfold splitAfterLast at h
    split at h
    · next before' after' hsplit =>
      cases h
      obtain ⟨rfl, hsep⟩ := ih hsplit
      exact ⟨rfl, hsep.trans (List.suffix_cons c before')⟩
    · split at h
      · next hsep =>
        cases h
        obtain ⟨rest, hrest⟩ : sep <+: c :: cs := by simpa using hsep
        rw [← hrest, List.drop_left]
        exact ⟨rfl, List.suffix_refl _⟩
      · cases h

/-- The trivia are divided into a header, which is empty or ends with an empty line, and a rest, which is
put behind an empty line. -/
theorem splitHeader_append (eol : String) (lead : Trivia) : ∃ rest : List Char,
    lead.toList = (splitHeader eol lead).1.toList ++ rest ∧
    (splitHeader eol lead).2.toList = (blankLine eol).toList ++ rest ∧
    ((splitHeader eol lead).1 = "" ∨ (blankLine eol).toList <:+ (splitHeader eol lead).1.toList) := by
  unfold splitHeader
  split
  · next header rest hsplit =>
    obtain ⟨happend, hsep⟩ := splitAfterLast_append hsplit
    exact ⟨rest, by simpa using happend, by simp, .inr (by simpa using hsep)⟩
  · exact ⟨lead.toList, by simp, by simp, .inl rfl⟩

theorem getLast?_blankLine (m : Module) : (blankLine (lineBreak m)).toList.getLast? = some '\n' := by
  rw [blankLine, lineBreak]
  split <;> decide

/-! ### Placements -/

namespace Placement

variable {eol : String} {hasPackage : Bool} {p : Placement} {names : List String}

variable (eol) (hasPackage) (p) in
theorem add_imports_ne_nil (name : String) : (p.add eol hasPackage name).imports ≠ [] := by
  obtain ⟨as, bs, _, h⟩ := exists_add eol hasPackage p name
  intro hnil
  rw [hnil] at h
  simp at h

variable (eol) (hasPackage) (names) in
theorem exists_lead_foldl_add {i : Import} (hi : i ∈ p.imports) :
    ∃ j ∈ (names.foldl (add eol hasPackage) p).imports, j.lead = i.lead := by
  induction names generalizing p i with
  | nil => exact ⟨i, hi, rfl⟩
  | cons name names ih =>
    obtain ⟨imports, leftover, firstLead, nextId⟩ := p
    cases imports with
    | nil => cases hi
    | cons first rest =>
      obtain ⟨j, hj, hlead⟩ := exists_lead_insertSorted eol (Import.single nextId "" name) hi
      obtain ⟨k, hk, hlead'⟩ :=
        ih (p := add eol hasPackage ⟨first :: rest, leftover, firstLead, nextId⟩ name) hj
      exact ⟨k, hk, hlead'.trans hlead⟩

theorem suffix_ensureBlankLine (eol : String) (lead : Trivia) :
    lead.toList <:+ (ensureBlankLine eol lead).toList := by
  unfold ensureBlankLine
  split
  · exact List.suffix_refl _
  · split
    · simp
    · simp

/-- The trivia of the first type are not divided. -/
def KeepsHeader (hasPackage : Bool) (p : Placement) : Prop :=
  p.imports ≠ [] ∨ p.leftover.isSome = true ∨ hasPackage = true

variable (eol) in
theorem exists_firstLead_add (hp : p.KeepsHeader hasPackage) {lead : Trivia} (h : p.firstLead = some lead)
    (name : String) : ∃ lead', (p.add eol hasPackage name).firstLead = some lead' ∧
      lead.toList <:+ lead'.toList := by
  obtain ⟨imports, leftover, firstLead, nextId⟩ := p
  cases h
  cases imports with
  | cons first rest => exact ⟨lead, rfl, List.suffix_refl _⟩
  | nil =>
    cases leftover with
    | some left => exact ⟨lead, rfl, List.suffix_refl _⟩
    | none =>
      obtain rfl : hasPackage = true := by simpa [KeepsHeader] using hp
      exact ⟨_, rfl, suffix_ensureBlankLine eol lead⟩

variable (eol) (names) in
theorem exists_firstLead_foldl_add (hp : p.KeepsHeader hasPackage) {lead : Trivia}
    (h : p.firstLead = some lead) : ∃ lead', (names.foldl (add eol hasPackage) p).firstLead = some lead' ∧
      lead.toList <:+ lead'.toList := by
  induction names generalizing p lead with
  | nil => exact ⟨lead, h, List.suffix_refl _⟩
  | cons name names ih =>
    obtain ⟨next, hnext, hsuffix⟩ := exists_firstLead_add eol hp h name
    obtain ⟨lead', hlead', hsuffix'⟩ := ih (.inl (add_imports_ne_nil _ _ _ name)) hnext
    exact ⟨lead', hlead', hsuffix.trans hsuffix'⟩

variable (eol) (hasPackage) (names) in
/-- What stands in front of the imports and in front of the first type stays there once there is an
import. -/
theorem head_foldl_add {i : Import} {is : List Import} (h : p.imports = i :: is) :
    ∃ j js, (names.foldl (add eol hasPackage) p).imports = j :: js ∧ j.lead = i.lead ∧
      (names.foldl (add eol hasPackage) p).firstLead = p.firstLead := by
  induction names generalizing p i is with
  | nil => exact ⟨i, is, h, rfl, rfl⟩
  | cons name names ih =>
    obtain ⟨imports, leftover, firstLead, nextId⟩ := p
    cases h
    obtain ⟨next, rest, hnext, hlead⟩ := exists_head_insertSorted eol (Import.single nextId "" name) i is
    obtain ⟨j, js, hj, hlead', hfirst⟩ := ih (p := add eol hasPackage ⟨i :: is, _, _, _⟩ name) hnext
    exact ⟨j, js, hj, hlead'.trans hlead, hfirst⟩

variable (hasPackage) (names) in
/-- New imports bring no trivia with them but line breaks and empty lines. -/
theorem tail_leads_foldl_add (h : ∀ i ∈ p.imports.tail, i.lead = eol ∨ i.lead = blankLine eol) :
    ∀ i ∈ (names.foldl (add eol hasPackage) p).imports.tail, i.lead = eol ∨ i.lead = blankLine eol := by
  induction names generalizing p with
  | nil => exact h
  | cons name names ih =>
    refine ih fun i hi => ?_
    obtain ⟨imports, leftover, firstLead, nextId⟩ := p
    cases imports with
    | cons first rest =>
      rcases tail_leads_insertSorted eol (Import.single nextId "" name) first rest i hi with
        hlead | ⟨j, hj, hlead⟩
      · exact hlead
      · rw [← hlead]
        exact h j hj
    | nil =>
      cases leftover with
      | some lead => cases hi
      | none =>
        cases hasPackage with
        | true => cases hi
        | false => cases firstLead <;> cases hi

theorem foldl_add_imports_eq_nil :
    (names.foldl (add eol hasPackage) p).imports = [] ↔ names = [] ∧ p.imports = [] := by
  cases names with
  | nil => simp
  | cons name names =>
    obtain ⟨i, is, hadd⟩ := List.exists_cons_of_ne_nil (add_imports_ne_nil eol hasPackage p name)
    obtain ⟨j, js, hj, _⟩ := head_foldl_add eol hasPackage names hadd
    simp [hj]

variable (eol) in
/-- The first imports of a module divide the trivia of its first type. -/
theorem foldl_add_splits (lead : Trivia) (nextId : NodeId) (hnames : names ≠ []) :
    ∃ i is, (names.foldl (add eol false) ⟨[], none, some lead, nextId⟩).imports = i :: is ∧
      i.lead = (splitHeader eol lead).1 ∧
      (names.foldl (add eol false) ⟨[], none, some lead, nextId⟩).firstLead =
        some (splitHeader eol lead).2 := by
  cases names with
  | nil => exact absurd rfl hnames
  | cons name names =>
    exact head_foldl_add eol false names (p := add eol false ⟨[], none, some lead, nextId⟩ name) rfl

/-- A line break or an empty line is all that stands in front of an import, or an empty line opens the trivia
of the first type. -/
def HasBreak (eol : String) (p : Placement) : Prop :=
  (∃ i ∈ p.imports, i.lead = eol ∨ i.lead = blankLine eol) ∨
    ∃ lead ∈ p.firstLead, (blankLine eol).toList <+: lead.toList

variable (hasPackage) (names) in
/-- No line break that has been put in is taken away again. -/
theorem HasBreak.foldl_add (h : p.HasBreak eol) (hne : p.imports ≠ []) :
    (names.foldl (add eol hasPackage) p).HasBreak eol := by
  rcases h with ⟨i, hi, hbreak⟩ | ⟨lead, hlead, hbreak⟩
  · obtain ⟨j, hj, hsame⟩ := exists_lead_foldl_add eol hasPackage names hi
    exact .inl ⟨j, hj, hsame ▸ hbreak⟩
  · obtain ⟨i, is, himports⟩ := List.exists_cons_of_ne_nil hne
    obtain ⟨_, _, _, _, hfirst⟩ := head_foldl_add eol hasPackage names himports
    exact .inr ⟨lead, hfirst ▸ hlead, hbreak⟩

variable (eol) (hasPackage) in
/-- An import that is put between others comes with a line break. -/
theorem hasBreak_add (hne : p.imports ≠ []) (name : String) : (p.add eol hasPackage name).HasBreak eol := by
  obtain ⟨imports, leftover, firstLead, nextId⟩ := p
  obtain ⟨first, rest, rfl⟩ := List.exists_cons_of_ne_nil hne
  obtain ⟨as, bs, _, _, x, hx, hafter⟩ :=
    exists_leads_insertSorted eol (Import.single nextId "" name) hne
  have hmem : x ∈ (insertSorted eol (Import.single nextId "" name) (first :: rest)).map (·.lead) := by
    rw [hafter]
    exact List.mem_append_right _ List.mem_cons_self
  obtain ⟨i, hi, rfl⟩ := List.mem_map.mp hmem
  exact .inl ⟨i, hi, hx⟩

variable (eol) (hasPackage) in
/-- So does the first import, unless it takes over the trivia of removed ones. -/
theorem hasBreak_add_first (himports : p.imports = []) (hleft : p.leftover = none)
    (hfirst : p.firstLead.isSome = true) (name : String) : (p.add eol hasPackage name).HasBreak eol := by
  obtain ⟨imports, leftover, firstLead, nextId⟩ := p
  cases himports
  cases hleft
  obtain ⟨lead, rfl⟩ := Option.isSome_iff_exists.mp hfirst
  cases hasPackage with
  | true => exact .inl ⟨_, List.mem_singleton_self _, .inr rfl⟩
  | false =>
    obtain ⟨rest, _, hbelow, _⟩ := splitHeader_append eol lead
    exact .inr ⟨_, rfl, rest, hbelow.symm⟩

variable (eol) (hasPackage) in
/-- **Imports come with a line break**, but for a single one that takes over the trivia of removed ones. -/
theorem hasBreak_foldl_add (hfirst : p.firstLead.isSome = true) (hnames : names ≠ [])
    (hone : names.length = 1 → p.imports = [] → p.leftover = none) :
    (names.foldl (add eol hasPackage) p).HasBreak eol := by
  obtain ⟨name, more, rfl⟩ := List.exists_cons_of_ne_nil hnames
  cases more with
  | nil =>
    by_cases himports : p.imports = []
    · exact hasBreak_add_first eol hasPackage himports (hone rfl himports) hfirst name
    · exact hasBreak_add eol hasPackage himports name
  | cons next more =>
    -- whatever the first of them takes over, the second one is put next to it
    have hnext := hasBreak_add eol hasPackage (add_imports_ne_nil eol hasPackage p name) next
    exact hnext.foldl_add hasPackage more (add_imports_ne_nil _ _ _ next)

theorem settle_eq_self (h : p.imports ≠ [] ∨ p.leftover = none ∨ hasPackage = true) :
    p.settle hasPackage = p := by
  obtain ⟨imports, leftover, firstLead, nextId⟩ := p
  rw [settle]
  split
  · next hcond =>
    rw [Bool.and_eq_true, List.isEmpty_iff, Bool.not_eq_true'] at hcond
    rcases h with h | h | h
    · exact absurd hcond.1 h
    · cases h
      rfl
    · cases hcond.2.symm.trans h
  · rfl

end Placement

/-- The imports with all new ones put in, when it is still open what becomes of trivia that are left. -/
def placed (m : Module) (marked : List (Import × Bool)) (names : List String) (nextId : NodeId) :
    Placement :=
  names.foldl (Placement.add (lineBreak m) m.package.isSome)
    ⟨(keep false none marked).1, (keep false none marked).2, m.types.head?.map (·.lead), nextId⟩

variable {m : Module} {marked : List (Import × Bool)} {names : List String} {nextId : NodeId}

theorem carryOut_imports : (carryOut m marked names nextId).imports =
    (placed m marked names nextId).imports := settle_imports _ _

theorem carryOut_types : (carryOut m marked names nextId).types =
    withFirstLead ((placed m marked names nextId).settle m.package.isSome).firstLead m.types := rfl

variable (marked) (names) (nextId) in
/-- The first type of a module has other trivia in front of it than before only where the header of the
file is divided or the trivia of removed imports take their place. -/
theorem carryOut_firstLead {d : TypeDecl} {ds : List TypeDecl} (htypes : m.types = d :: ds)
    (hkeeps : m.package.isSome = true ∨ marked ≠ [])
    (hout : m.package.isSome = true ∨ (carryOut m marked names nextId).imports ≠ []) :
    ∃ lead, (carryOut m marked names nextId).types = { d with lead } :: ds ∧
      d.lead.toList <:+ lead.toList := by
  have hheader : Placement.KeepsHeader m.package.isSome
      ⟨(keep false none marked).1, (keep false none marked).2, m.types.head?.map (·.lead), nextId⟩ := by
    by_cases hkept : (keep false none marked).1 = []
    · exact .inr (hkeeps.symm.imp_left (isSome_left_of_keep_eq_nil hkept).mpr)
    · exact .inl hkept
  have hfirst : m.types.head?.map (·.lead) = some d.lead := by rw [htypes]; rfl
  obtain ⟨lead, hlead, hsuffix⟩ :=
    Placement.exists_firstLead_foldl_add (lineBreak m) names hheader hfirst
  have hsettled : (placed m marked names nextId).settle m.package.isSome = placed m marked names nextId :=
    Placement.settle_eq_self (hout.symm.imp (carryOut_imports ▸ ·) .inr)
  refine ⟨lead, ?_, hsuffix⟩
  rw [carryOut_types, hsettled, htypes, placed, hlead]
  rfl

variable (nextId) in
/-- The first imports of a module without a package divide the trivia of its first type. -/
theorem carryOut_splits {d : TypeDecl} {ds : List TypeDecl} (htypes : m.types = d :: ds)
    (hpackage : m.package = none) (hnames : names ≠ []) :
    ∃ i is, (carryOut m [] names nextId).imports = i :: is ∧
      i.lead = (splitHeader (lineBreak m) d.lead).1 ∧
      (carryOut m [] names nextId).types =
        { d with lead := (splitHeader (lineBreak m) d.lead).2 } :: ds := by
  obtain ⟨i, is, himports, hlead, hfirst⟩ :=
    Placement.foldl_add_splits (lineBreak m) d.lead nextId hnames
  have hplaced : placed m [] names nextId =
      names.foldl (Placement.add (lineBreak m) false) ⟨[], none, some d.lead, nextId⟩ := by
    rw [placed, hpackage, htypes]
    rfl
  have hsettled : (placed m [] names nextId).settle m.package.isSome = placed m [] names nextId :=
    Placement.settle_eq_self (.inl (by rw [hplaced, himports]; simp))
  refine ⟨i, is, by rw [carryOut_imports, hplaced, himports], hlead, ?_⟩
  rw [carryOut_types, hsettled, hplaced, hfirst, htypes]
  rfl

variable (nextId) in
/-- Where imports are added, a line break stands in front of one of them or an empty line opens the trivia of
the first type, but for a single one in the place of all others. -/
theorem carryOut_hasBreak (htypes : m.types ≠ []) (hnames : names ≠ [])
    (hone : ¬ (names.length = 1 ∧ marked ≠ [] ∧ ∀ q ∈ marked, q.2 = true)) :
    (∃ i ∈ (carryOut m marked names nextId).imports,
        i.lead = lineBreak m ∨ i.lead = blankLine (lineBreak m)) ∨
      ∃ d ds, (carryOut m marked names nextId).types = d :: ds ∧
        (blankLine (lineBreak m)).toList <+: d.lead.toList := by
  obtain ⟨d, ds, htypes⟩ := List.exists_cons_of_ne_nil htypes
  have hbreak : (placed m marked names nextId).HasBreak (lineBreak m) := by
    refine Placement.hasBreak_foldl_add _ _ (by rw [htypes]; rfl) hnames fun hlength hkept => ?_
    rw [← Option.not_isSome_iff_eq_none, isSome_left_of_keep_eq_nil hkept]
    exact fun hne => hone ⟨hlength, hne, keep_eq_nil_iff.mp hkept⟩
  have hne : (placed m marked names nextId).imports ≠ [] := fun hnil =>
    hnames (Placement.foldl_add_imports_eq_nil.mp hnil).1
  rw [carryOut_imports, carryOut_types, Placement.settle_eq_self (.inl hne), htypes]
  rcases hbreak with himport | ⟨lead, hlead, hbelow⟩
  · exact .inl himport
  · refine .inr ⟨{ d with lead }, ds, ?_, hbelow⟩
    rw [Option.mem_def.mp hlead]
    rfl

theorem carryOut_nil : (carryOut m [] [] nextId).types = m.types := by
  cases htypes : m.types with
  | nil => simp [carryOut, htypes, withFirstLead, Module.raiseNextId]
  | cons d ds =>
    have hsettled : (placed m [] [] nextId).settle m.package.isSome = placed m [] [] nextId :=
      Placement.settle_eq_self (.inr (.inl rfl))
    rw [carryOut_types, hsettled, htypes, placed, htypes]
    obtain ⟨_, _, _, _, _, _, _, _, _, _⟩ := d
    rfl

end Migration.Imports
