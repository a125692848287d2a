import Migration.Grammar.Declarations
import Migration.Proofs.Imports.Leads
import Migration.Proofs.Token.Scanning
import Migration.Proofs.Traversal.Walk
import Migration.Tree.Printer

/-!
# Comments in front of imports and types

Bringing the imports of a module in line leaves most of its trivia where a reader finds them again, and
some nowhere. Main result (`Module.reconcile_comments`): the comments in front of an import that is kept
are found in the text of the result unless a removed import hands its own trivia on to it, and those in
front of a type are found unless it is the first type of a module without a package that loses all its
imports. In these two cases the trivia have no influence on the result at all, so their comments are
lost. The first import of a module without a package can also come to stand inside a block comment in
front of the first type, which is thereby torn apart.
-/

namespace Migration

open Imports (Demand HandsOn Placement carryOut keep lineBreak splitHeader withFirstLead)
open Scan (Closed)

/-- A comment of some trivia, between what stands in front of it and what stands behind it. -/
inductive Trivia.CommentAt (lead : Trivia) : List Char → List Char → List Char → Prop
  | line {front body back : List Char} (htext : lead.toList = front ++ '/' :: '/' :: body ++ back)
    (hfront : Closed .between front) (hbody : '\n' ∉ body) (hback : back = [] ∨ back.head? = some '\n') :
    CommentAt lead front ('/' :: '/' :: body) back
  | block {front body back : List Char}
    (htext : lead.toList = front ++ '/' :: '*' :: (body ++ ['*', '/']) ++ back)
    (hfront : Closed .between front) (hbody : ¬ ['*', '/'] <:+: body ++ ['*']) :
    CommentAt lead front ('/' :: '*' :: (body ++ ['*', '/'])) back

theorem Trivia.CommentAt.text {lead : Trivia} {front c back : List Char} (h : lead.CommentAt front c back) :
    lead.toList = front ++ c ++ back := by
  cases h with
  | line htext => exact htext
  | block htext => exact htext

theorem Trivia.CommentAt.isInfix {lead : Trivia} {front c back : List Char} (h : lead.CommentAt front c back) :
    c <:+: lead.toList := ⟨front, back, h.text.symm⟩

/-! ### Printing -/

theorem Import.lead_isPrefix_print (i : Import) : i.lead.toList <+: i.print.toList := by
  simp [Import.print]

theorem TypeDecl.lead_isPrefix_print (d : TypeDecl) : d.lead.toList <+: d.print.toList := by
  obtain ⟨_, _, _, _, _, _, _, _, _, _⟩ := d
  simp [TypeDecl.print, printHeader]

theorem isInfix_join {parts : List String} {part : String} (h : part ∈ parts) :
    part.toList <:+: (String.join parts).toList := by
  obtain ⟨front, back, rfl⟩ := List.append_of_mem h
  exact ⟨(String.join front).toList, (String.join back).toList, by simp⟩

theorem Module.import_lead_isInfix_print {m : Module} {i : Import} (hi : i ∈ m.imports) :
    i.lead.toList <:+: m.print.toList := by
  refine i.lead_isPrefix_print.isInfix.trans ((isInfix_join (List.mem_map_of_mem hi)).trans ?_)
  exact ⟨(printOption Package.print m.package).toList,
    (String.join (m.types.map TypeDecl.print)).toList ++ m.eof.toList, by simp [Module.print]⟩

theorem Module.type_lead_isInfix_print {m : Module} {d : TypeDecl} (hd : d ∈ m.types) :
    d.lead.toList <:+: m.print.toList := by
  refine d.lead_isPrefix_print.isInfix.trans ((isInfix_join (List.mem_map_of_mem hd)).trans ?_)
  exact ⟨(printOption Package.print m.package).toList ++ (String.join (m.imports.map Import.print)).toList,
    m.eof.toList, by simp [Module.print]⟩

/-! ### What does not depend on trivia -/

theorem zipIdx_find?_bare (test : Import → Bool) (htest : ∀ i, test i.bare = test i)
    (imports : List Import) : (imports.zipIdx.find? fun q => test q.1).map (fun q => (q.1.bare, q.2)) =
      (imports.map Import.bare).zipIdx.find? fun q => test q.1 := by
  rw [List.zipIdx_map, List.find?_map]
  congr 2
  funext q
  exact (htest q.1).symm

namespace Imports.Demand

variable {d d' : Demand} (hsymbols : d'.symbols = d.symbols) (hused : d'.used = d.used)
  (huntouched : d'.untouched = d.untouched) (hremovals : d'.removals = d.removals)
  (himports : d'.module.imports.map Import.bare = d.module.imports.map Import.bare)

theorem any_imports_congr {test : Import → Bool} (htest : ∀ i, test i.bare = test i)
    (himports : d'.module.imports.map Import.bare = d.module.imports.map Import.bare) :
    d'.module.imports.any test = d.module.imports.any test := by
  have hbare (imports : List Import) : imports.any test = (imports.map Import.bare).any test := by
    rw [List.any_map]
    congr 1
    funext i
    exact (htest i).symm
  rw [hbare, himports, ← hbare]

include hsymbols hused huntouched hremovals himports in
/-- A plan looks at the names of imports only. -/
theorem request_congr (p : Plan) (name : String) : d'.request p name = d.request p name := by
  have hfull : d'.fullName name = d.fullName name := by rw [fullName, hsymbols, fullName]
  have hsatisfied (full : String) : d'.isSatisfied full = d.isSatisfied full := by
    simp only [isSatisfied, hsymbols, hused, Module.typeImports, List.any_filter]
    rw [any_imports_congr (fun _ => rfl) himports]
  have hdemand (full : String) : d'.isOnDemand full = d.isOnDemand full :=
    any_imports_congr (fun _ => rfl) himports
  have hclash (full : String) : (d'.clash? full).map (fun q => (q.1.bare, q.2)) =
      (d.clash? full).map (fun q => (q.1.bare, q.2)) := by
    have hfind (imports : List Import) := zipIdx_find?_bare
      (fun i => i.isSingleType && Name.simple i.name == Name.simple full && i.name != full)
      (fun _ => rfl) imports
    simp only [clash?]
    rw [hfind, hfind, himports]
  have hgiven {i i' : Import} (h : i'.bare = i.bare) : d'.isGivenUp i' = d.isGivenUp i := by
    have hby : isGivenUpBy i'.bare = isGivenUpBy i.bare := congrArg isGivenUpBy h
    change isGivenUpBy i' = isGivenUpBy i at hby
    rw [isGivenUp, hremovals, hby, isGivenUp]
  simp only [request, hfull]
  refine congrArg (bind (d.fullName name)) (funext fun full => ?_)
  rw [hsatisfied, hdemand, huntouched]
  specialize hclash full
  cases hold : d.clash? full with
  | none =>
    rw [hold, Option.map_none, Option.map_eq_none_iff] at hclash
    rw [hclash]
  | some q =>
    obtain ⟨existing, k⟩ := q
    rw [hold, Option.map_some] at hclash
    obtain ⟨⟨existing', k'⟩, hnew, heq⟩ := Option.map_eq_some_iff.mp hclash
    obtain ⟨hbare, hk⟩ := Prod.ext_iff.mp heq
    have hname : existing'.bare.name = existing.bare.name := congrArg Import.name hbare
    change existing'.name = existing.name at hname
    cases hk
    simp only [hnew, hgiven hbare, hname]

variable (d d') in
include hsymbols hused huntouched hremovals himports in
theorem plan_congr (names : List String) : d'.plan names = d.plan names := by
  have hrequest : d'.request = d.request := by
    funext p name
    exact request_congr hsymbols hused huntouched hremovals himports p name
  rw [plan, hrequest, plan]

variable (d d') in
include hused hremovals himports in
theorem marked_map_snd_congr (p : Plan) : (d'.marked p).map (·.2) = (d.marked p).map (·.2) := by
  have hbare (d : Demand) : (d.marked p).map (·.2) =
      (d.module.imports.map Import.bare).zipIdx.map fun q => d.isRemoved p q.1 q.2 := by
    rw [marked, List.map_map, List.zipIdx_map, List.map_map]
    rfl
  have hremoved : d'.isRemoved p = d.isRemoved p := by
    funext i k
    rw [isRemoved, isGivenUp, hremovals, hused, isRemoved, isGivenUp]
  rw [hbare, hbare, himports, hremoved]

end Imports.Demand

theorem usedNamesExcept_congr {m m' : Module} (skip : List NodeId)
    (h : Outline.mentions skip (m'.types.map TypeDecl.outline) =
      Outline.mentions skip (m.types.map TypeDecl.outline)) :
    m'.usedNamesExcept skip = m.usedNamesExcept skip :=
  NameSet.eq_of_mem_iff fun x => by rw [mem_usedNamesExcept, mem_usedNamesExcept, h]

theorem Module.reconcile_of_removed {m : Module} {symbols : SymbolTable} {s : PassState}
    {plan : Imports.Plan} (hplan : (Demand.ofPass m symbols s).plan s.additions.toList = .ok plan)
    (hsome : ((Demand.ofPass m symbols s).marked plan).filter (·.2) ≠ []) :
    m.reconcile symbols s =
      .ok (carryOut m ((Demand.ofPass m symbols s).marked plan) plan.additions.toList s.nextId,
        ⟨plan.additions.toList, (((Demand.ofPass m symbols s).marked plan).filter (·.2)).map (·.1.name)⟩) := by
  have hempty : ((((Demand.ofPass m symbols s).marked plan).filter (·.2)).map (·.1.name)).isEmpty = false := by
    simpa using hsome
  simp only [reconcile, hplan, bind, Except.bind, hempty, Bool.and_false]
  rfl

/-- Modules that use and import the same names are brought in line alike, where something is removed and
carrying out the plan comes to the same. -/
theorem Module.reconcile_congr {m m' : Module} {symbols : SymbolTable} {s : PassState}
    {plan : Imports.Plan} (hused : ∀ skip, m'.usedNamesExcept skip = m.usedNamesExcept skip)
    (himports : m'.imports.map Import.bare = m.imports.map Import.bare)
    (hplan : (Demand.ofPass m symbols s).plan s.additions.toList = .ok plan)
    (hremoved : ((Demand.ofPass m' symbols s).marked plan).filter (·.2) =
      ((Demand.ofPass m symbols s).marked plan).filter (·.2))
    (hsome : ((Demand.ofPass m symbols s).marked plan).filter (·.2) ≠ [])
    (hcarry : carryOut m' ((Demand.ofPass m' symbols s).marked plan) plan.additions.toList s.nextId =
      carryOut m ((Demand.ofPass m symbols s).marked plan) plan.additions.toList s.nextId) :
    m'.reconcile symbols s = m.reconcile symbols s := by
  have hsame := Demand.plan_congr (.ofPass m symbols s) (.ofPass m' symbols s) rfl (hused [])
    (hused s.retargeted) rfl himports s.additions.toList
  rw [reconcile_of_removed hplan hsome, reconcile_of_removed (hsame.trans hplan) (hremoved ▸ hsome),
    hremoved, hcarry]

variable {m out : Module} {symbols : SymbolTable} {s : PassState} {changes : ImportChanges}
  {plan : Imports.Plan}

variable (m symbols s plan) in
theorem Imports.Demand.ofPass_marked_fst :
    ((Demand.ofPass m symbols s).marked plan).map (·.1) = m.imports := marked_map_fst plan

/-! ### Imports that are kept -/

section Kept

variable {before after : List (Import × Bool)} {i : Import}
  (hmarked : (Demand.ofPass m symbols s).marked plan = before ++ (i, false) :: after)

include hmarked

/-- Without trivia to take over, an import that is kept keeps its own. -/
theorem reconcile_lead_kept (hplan : (Demand.ofPass m symbols s).plan s.additions.toList = .ok plan)
    (hbefore : ¬ HandsOn before) (h : m.reconcile symbols s = .ok (out, changes)) :
    i.lead.toList <:+: out.print.toList := by
  obtain ⟨plan', hplan', _, ⟨_, _, rfl⟩ | rfl⟩ := Module.reconcile_cases h
  · have hmem : i ∈ m.imports := by
      rw [← Imports.Demand.ofPass_marked_fst m symbols s plan, hmarked]
      simp
    exact Module.import_lead_isInfix_print (m := m.raiseNextId s.nextId) hmem
  · cases hplan.symm.trans hplan'
    obtain ⟨j, hj, hlead⟩ := Imports.exists_lead_keep i after hbefore
    rw [← hmarked] at hj
    obtain ⟨k, hk, hlead'⟩ := Placement.exists_lead_foldl_add (lineBreak m) m.package.isSome
      plan.additions.toList (p := ⟨_, (keep false none ((Demand.ofPass m symbols s).marked plan)).2,
        m.types.head?.map (·.lead), s.nextId⟩) hj
    rw [← hlead, ← hlead']
    refine Module.import_lead_isInfix_print ?_
    rw [Imports.carryOut_imports]
    exact hk

/-- With trivia to take over, its own have no influence. -/
theorem reconcile_lead_overtaken
    (hplan : (Demand.ofPass m symbols s).plan s.additions.toList = .ok plan) (hbefore : HandsOn before)
    {lead : Trivia} {other : Module}
    (hother : other = { m with imports := before.map (·.1) ++ i.withLead lead :: after.map (·.1) })
    (hbreak : lineBreak other = lineBreak m) : other.reconcile symbols s = m.reconcile symbols s := by
  have himports : m.imports = before.map (·.1) ++ i :: after.map (·.1) := by
    rw [← Imports.Demand.ofPass_marked_fst m symbols s plan, hmarked]
    simp
  have hbare : other.imports.map Import.bare = m.imports.map Import.bare := by
    rw [hother, himports, List.map_append, List.map_append]
    rfl
  have hused (skip : List NodeId) : other.usedNamesExcept skip = m.usedNamesExcept skip :=
    usedNamesExcept_congr skip (by rw [hother])
  have hmarked' : (Demand.ofPass other symbols s).marked plan =
      before ++ (i.withLead lead, false) :: after := by
    have hflags := Imports.Demand.marked_map_snd_congr (.ofPass m symbols s) (.ofPass other symbols s)
      (hused []) rfl hbare plan
    rw [hmarked] at hflags
    rw [List.zip_of_prod (Imports.Demand.ofPass_marked_fst other symbols s plan) hflags, hother]
    refine (List.zip_of_prod ?_ ?_).symm <;> simp
  refine Module.reconcile_congr hused hbare hplan ?_ ?_ ?_
  · rw [hmarked', hmarked, List.filter_append, List.filter_append]
    rfl
  · obtain ⟨q, hq, hremoved⟩ := hbefore.exists_removed
    rw [hmarked]
    exact List.ne_nil_of_mem (List.mem_filter.mpr ⟨List.mem_append_left _ hq, hremoved⟩)
  · simp only [carryOut, hbreak, hmarked', hmarked, Imports.keep_withLead hbefore]
    rw [hother]

end Kept

/-! ### The first type -/

/-- The first type of a module without a package that loses all its imports has no influence by its
trivia. -/
theorem reconcile_firstLead_overtaken {d : TypeDecl} {ds : List TypeDecl} (htypes : m.types = d :: ds)
    (hpackage : m.package = none) (himports : m.imports ≠ []) (hout : out.imports = [])
    (h : m.reconcile symbols s = .ok (out, changes)) {lead : Trivia} {other : Module}
    (hother : other = { m with types := { d with lead } :: ds }) (hbreak : lineBreak other = lineBreak m) :
    other.reconcile symbols s = m.reconcile symbols s := by
  have hbare : other.imports.map Import.bare = m.imports.map Import.bare := by rw [hother]
  have hused (skip : List NodeId) : other.usedNamesExcept skip = m.usedNamesExcept skip := by
    refine usedNamesExcept_congr skip ?_
    rw [hother, htypes, List.map_cons, List.map_cons, Outline.mentions_cons, Outline.mentions_cons _ (ds.map _)]
    obtain ⟨_, _, _, _, _, _, _, _, _, _⟩ := d
    rw [TypeDecl.outline, TypeDecl.outline, Outline.mentions_node, Outline.mentions_node]
    rfl
  obtain ⟨plan, hplan, _, ⟨_, _, rfl⟩ | rfl⟩ := Module.reconcile_cases h
  · exact absurd hout himports
  rw [Imports.carryOut_imports, Imports.placed, Placement.foldl_add_imports_eq_nil] at hout
  obtain ⟨hnames, hkept⟩ := hout
  change (keep false none ((Demand.ofPass m symbols s).marked plan)).1 = [] at hkept
  have hmarked : (Demand.ofPass other symbols s).marked plan = (Demand.ofPass m symbols s).marked plan := by
    have hflags := Imports.Demand.marked_map_snd_congr (.ofPass m symbols s) (.ofPass other symbols s)
      (hused []) rfl hbare plan
    rw [List.zip_of_prod (Imports.Demand.ofPass_marked_fst other symbols s plan) hflags, hother]
    exact (List.zip_of_prod (Imports.Demand.ofPass_marked_fst m symbols s plan) rfl).symm
  have hleft : (keep false none ((Demand.ofPass m symbols s).marked plan)).2.isSome = true := by
    rw [Imports.isSome_left_of_keep_eq_nil hkept]
    intro hnil
    rw [← Imports.Demand.ofPass_marked_fst m symbols s plan, hnil] at himports
    exact himports rfl
  refine Module.reconcile_congr hused hbare hplan (by rw [hmarked]) ?_ ?_
  · obtain ⟨q, hq, hremoved⟩ := (Imports.handsOn_iff.mpr hleft).exists_removed
    exact List.ne_nil_of_mem (List.mem_filter.mpr ⟨hq, hremoved⟩)
  · obtain ⟨carry, hcarry⟩ := Option.isSome_iff_exists.mp hleft
    simp only [carryOut, hbreak, hmarked, hnames, hkept, hcarry, List.foldl_nil]
    rw [hother, htypes, hpackage]
    rfl

/-- The first imports of a module stand inside a comment of its first type: the comment is torn apart. -/
def TornApart (m out : Module) (front c back : List Char) : Prop :=
  ∃ c₁ c₂ body, c₁ ≠ [] ∧ c₂ ≠ [] ∧ c = c₁ ++ c₂ ∧ c = '/' :: '*' :: (body ++ ['*', '/']) ∧
    m.package = none ∧ m.imports = [] ∧
    out.imports.head?.map (·.lead.toList) = some (front ++ c₁) ∧
    out.types.head?.map (·.lead.toList) = some ((Imports.blankLine (lineBreak m)).toList ++ c₂ ++ back)

/-- A comment is in one half of the divided trivia, or it is a block comment that the cut goes through. -/
theorem Trivia.CommentAt.split {lead : Trivia} {front c back header rest : List Char}
    (h : lead.CommentAt front c back) (hsplit : lead.toList = header ++ rest)
    (hend : header = [] ∨ header.getLast? = some '\n') :
    c <:+: header ∨ c <:+: rest ∨ ∃ c₁ c₂ body, c₁ ≠ [] ∧ c₂ ≠ [] ∧ c = c₁ ++ c₂ ∧
      c = '/' :: '*' :: (body ++ ['*', '/']) ∧ header = front ++ c₁ ∧ rest = c₂ ++ back := by
  have htext := h.text.symm.trans hsplit
  rw [List.append_assoc, List.append_eq_append_iff] at htext
  rcases htext with ⟨c₁, rfl, htext⟩ | ⟨c', rfl, rfl⟩
  · rw [List.append_eq_append_iff] at htext
    rcases htext with ⟨x, rfl, rfl⟩ | ⟨c₂, rfl, rfl⟩
    · exact .inl ⟨front, x, by simp⟩
    · -- the cut goes through the comment
      by_cases hc₁ : c₁ = []
      · exact .inr (.inl ⟨[], back, by simp [hc₁]⟩)
      by_cases hc₂ : c₂ = []
      · exact .inl ⟨front, [], by simp [hc₂]⟩
      have hlast : c₁.getLast? = some '\n' := by
        rcases hend with hend | hend
        · simp [hc₁] at hend
        · rwa [List.getLast?_append_of_ne_nil _ hc₁] at hend
      have hmem : '\n' ∈ c₁ := List.mem_of_getLast? hlast
      generalize hc : c₁ ++ c₂ = c at h
      have hmem : '\n' ∈ c := hc ▸ List.mem_append_left c₂ hmem
      cases h with
      | line _ _ hbody => simp [hbody] at hmem
      | block => exact .inr (.inr ⟨c₁, c₂, _, hc₁, hc₂, hc.symm, rfl, rfl, rfl⟩)
  · exact .inr (.inl ⟨c', back, by simp⟩)

/-- Otherwise the comments of the first type are kept, except one that is torn apart. -/
theorem reconcile_firstLead_kept {d : TypeDecl} {ds : List TypeDecl} (htypes : m.types = d :: ds)
    (hkeeps : ¬ (m.package = none ∧ m.imports ≠ [] ∧ out.imports = []))
    (h : m.reconcile symbols s = .ok (out, changes)) {front c back : List Char}
    (hc : d.lead.CommentAt front c back) : c <:+: out.print.toList ∨ TornApart m out front c back := by
  have hshown (out : Module) {e : TypeDecl} (he : e ∈ out.types)
      (hlead : d.lead.toList <:+: e.lead.toList) : c <:+: out.print.toList :=
    hc.isInfix.trans (hlead.trans (Module.type_lead_isInfix_print he))
  have hd : d ∈ m.types := htypes ▸ List.mem_cons_self
  obtain ⟨plan, _, _, ⟨_, _, rfl⟩ | rfl⟩ := Module.reconcile_cases h
  · exact .inl (hshown (m.raiseNextId s.nextId) hd (List.infix_refl _))
  generalize hmarked : (Demand.ofPass m symbols s).marked plan = marked at *
  have himports : marked.map (·.1) = m.imports := by rw [← hmarked, Imports.Demand.ofPass_marked_fst]
  by_cases hdivides : m.package = none ∧ marked = []
  · obtain ⟨hpackage, rfl⟩ := hdivides
    by_cases hnames : plan.additions.toList = []
    · rw [hnames]
      exact .inl (hshown _ (by rw [Imports.carryOut_nil]; exact hd) (List.infix_refl _))
    obtain ⟨i, is, hout, hlead, htypes'⟩ :=
      Imports.carryOut_splits s.nextId htypes hpackage hnames
    obtain ⟨rest, happend, hrest, hheader⟩ := Imports.splitHeader_append (lineBreak m) d.lead
    have hend : (splitHeader (lineBreak m) d.lead).1.toList = [] ∨
        (splitHeader (lineBreak m) d.lead).1.toList.getLast? = some '\n' := by
      refine hheader.imp (fun hempty => by rw [hempty]; rfl) fun ⟨front, hfront⟩ => ?_
      rw [← hfront, List.getLast?_append, Imports.getLast?_blankLine]
      rfl
    rcases hc.split happend hend with hin | hin | ⟨c₁, c₂, body, hc₁, hc₂, hcut, hblock, hfront, hback⟩
    · have hi : i ∈ (carryOut m [] plan.additions.toList s.nextId).imports := by simp [hout]
      exact .inl (hin.trans (hlead ▸ Module.import_lead_isInfix_print hi))
    · have hrest' : rest <:+: (splitHeader (lineBreak m) d.lead).2.toList := by
        rw [hrest]
        exact (List.suffix_append _ rest).isInfix
      refine .inl (hin.trans (hrest'.trans ?_))
      exact Module.type_lead_isInfix_print (d := { d with lead := (splitHeader (lineBreak m) d.lead).2 })
        (by simp [htypes'])
    · refine .inr ⟨c₁, c₂, body, hc₁, hc₂, hcut, hblock, hpackage, himports.symm, ?_, ?_⟩
      · simp [hout, hlead, hfront]
      · simp [htypes', hrest, hback]
  · refine .inl ?_
    have hpackage : m.package.isSome = true ∨ m.package = none := by cases m.package <;> simp
    obtain ⟨lead, htypes', hsuffix⟩ := Imports.carryOut_firstLead marked
      plan.additions.toList s.nextId htypes
      (hpackage.imp_right fun hnone hnil => hdivides ⟨hnone, hnil⟩)
      (hpackage.imp_right fun hnone hnil => hkeeps ⟨hnone, fun hempty =>
        hdivides ⟨hnone, List.map_eq_nil_iff.mp (himports.trans hempty)⟩, hnil⟩)
    exact hshown _ (e := { d with lead }) (by rw [htypes']; exact List.mem_cons_self) hsuffix.isInfix

/-! ### All comments -/

/-- **Which comments survive when imports are brought in line.** An import that is kept keeps its comments,
unless a removed one hands its trivia on to it: then its own have no influence on the result, and their
comments are lost. The types keep their comments, except that those of the first type are lost in the same
way where a module without a package loses all its imports, and that the first imports of a module without
a package can stand inside a block comment. -/
theorem Module.reconcile_comments (h : m.reconcile symbols s = .ok (out, changes)) :
    ∃ plan, (Demand.ofPass m symbols s).plan s.additions.toList = .ok plan ∧
      (∀ before i after, (Demand.ofPass m symbols s).marked plan = before ++ (i, false) :: after →
        (¬ HandsOn before → ∀ front c back, i.lead.CommentAt front c back → c <:+: out.print.toList) ∧
        (HandsOn before → ∀ lead other,
          other = { m with imports := before.map (·.1) ++ i.withLead lead :: after.map (·.1) } →
          lineBreak other = lineBreak m → other.reconcile symbols s = .ok (out, changes))) ∧
      ∀ d ds, m.types = d :: ds →
        (∀ e ∈ ds, ∀ front c back, e.lead.CommentAt front c back → c <:+: out.print.toList) ∧
        (¬ (m.package = none ∧ m.imports ≠ [] ∧ out.imports = []) → ∀ front c back,
          d.lead.CommentAt front c back → c <:+: out.print.toList ∨ TornApart m out front c back) ∧
        (m.package = none ∧ m.imports ≠ [] ∧ out.imports = [] → ∀ lead other,
          other = { m with types := { d with lead } :: ds } → lineBreak other = lineBreak m →
            other.reconcile symbols s = .ok (out, changes)) := by
  obtain ⟨plan, hplan, _, _, ⟨firstLead, htypes⟩, _⟩ := Module.reconcile_spec h
  refine ⟨plan, hplan, fun before i after hmarked => ⟨?_, ?_⟩, fun d ds hds => ⟨?_, ?_, ?_⟩⟩
  · intro hbefore front c back hc
    exact hc.isInfix.trans (reconcile_lead_kept hmarked hplan hbefore h)
  · intro hbefore lead other hother hbreak
    rw [reconcile_lead_overtaken hmarked hplan hbefore hother hbreak, h]
  · intro e he front c back hc
    refine hc.isInfix.trans (Module.type_lead_isInfix_print ?_)
    rw [htypes, hds]
    exact List.mem_cons_of_mem _ he
  · intro hkeeps front c back hc
    exact reconcile_firstLead_kept hds hkeeps h hc
  · rintro ⟨hpackage, himports, hout⟩ lead other hother hbreak
    rw [reconcile_firstLead_overtaken hds hpackage himports hout h hother hbreak, h]

/-- The removed import hands its empty trivia on to the next one, whose comment is lost; the import behind
it keeps its comment. -/
theorem Module.reconcile_comments_handedOn : ∃ m out changes,
    Module.parse "import a.A;\n// lost\nimport b.B;\n// kept\nimport c.C;\nclass X extends B {C c;}" = .ok m ∧
    m.reconcile (.ofModule m (.ofList [])) { PassState.start m with removals := .ofList ["a.A"] } =
      .ok (out, changes) ∧
    out.print = "import b.B;\n// kept\nimport c.C;\nclass X extends B {C c;}" ∧
    "// kept".toList <:+: out.print.toList ∧ ¬ "// lost".toList <:+: out.print.toList := by
  have hcheck : (do
      let m ← (Module.parse
        "import a.A;\n// lost\nimport b.B;\n// kept\nimport c.C;\nclass X extends B {C c;}").toOption
      let symbols := SymbolTable.ofModule m (.ofList [])
      let s := { PassState.start m with removals := .ofList ["a.A"] }
      let result ← (m.reconcile symbols s).toOption
      let plan ← ((Demand.ofPass m symbols s).plan s.additions.toList).toOption
      return decide (result.1.print = "import b.B;\n// kept\nimport c.C;\nclass X extends B {C c;}")
        && decide (((Demand.ofPass m symbols s).marked plan).map (fun q => (q.1.lead, q.2)) =
          [("", true), ("\n// lost\n", false), ("\n// kept\n", false)]) : Option Bool) = some true := by
    decide +kernel
  obtain ⟨m, hm, hcheck⟩ := Option.bind_eq_some_iff.mp hcheck
  obtain ⟨⟨out, changes⟩, hout, hcheck⟩ := Option.bind_eq_some_iff.mp hcheck
  obtain ⟨plan, hplan, hcheck⟩ := Option.bind_eq_some_iff.mp hcheck
  simp only [pure, Option.some.injEq, Bool.and_eq_true, decide_eq_true_eq] at hcheck
  obtain ⟨hprint, hleads⟩ := hcheck
  obtain ⟨plan', hplan', himports, _⟩ := reconcile_comments (eq_ok_of_toOption hout)
  cases (eq_ok_of_toOption hplan).symm.trans hplan'
  obtain ⟨⟨a, _⟩, _, hmarked, ha, hleads⟩ := List.map_eq_cons_iff.mp hleads
  obtain ⟨⟨b, _⟩, _, rfl, hb, hleads⟩ := List.map_eq_cons_iff.mp hleads
  obtain ⟨⟨c, _⟩, after, rfl, hc, _⟩ := List.map_eq_cons_iff.mp hleads
  obtain ⟨_, rfl⟩ := Prod.ext_iff.mp ha
  obtain ⟨_, rfl⟩ := Prod.ext_iff.mp hb
  obtain ⟨hlead, rfl⟩ := Prod.ext_iff.mp hc
  change c.lead = "\n// kept\n" at hlead
  have hnone : ¬ HandsOn ([(a, true)] ++ [(b, false)]) := fun h =>
    Bool.false_ne_true (Imports.handsOn_concat.mp h).1
  have hcomment : Trivia.CommentAt c.lead ['\n'] "// kept".toList ['\n'] := by
    rw [hlead]
    exact .line rfl (.blank (by decide) .done) (by decide) (.inr rfl)
  refine ⟨m, out, changes, eq_ok_of_toOption hm, eq_ok_of_toOption hout, hprint,
    (himports [(a, true), (b, false)] c after hmarked).1 hnone _ _ _ hcomment, ?_⟩
  rw [hprint]
  decide +kernel

end Migration
