import Migration.Proofs.Grammar.RoundTrip
import Migration.Proofs.Imports.Readable
import Migration.Proofs.Imports.Report
import Migration.Proofs.Rule.Breaks
import Migration.Proofs.Tree.Rewording

/-!
# Line breaks in modules

A source with a property of line breaks is read as a module that has it in all of its tokens
(`Module.obeys_parse`), and a module that has it in all of its tokens is printed as a text that has it
(`Module.Obeys.toList_print`). Bringing the imports in line keeps the property when the line breaks that the
module uses have it, or when none are put in (`Module.Obeys.reconcile`), and only then
(`Module.lineBreak_of_reconcile`). Which line breaks those are is told by the trivia in front of the imports,
of the types and of the end of the file.
-/

namespace Migration

open Change (Each)
open Imports (breakSamples lineBreak blankLine splitHeader)
open Text (BreakLaw IsWindows)
open Token (word symbol)

variable {P : List Char → Prop}

/-! ### The line breaks of a module -/

namespace Imports

theorem hasWindowsBreak_iff {cs : List Char} : hasWindowsBreak cs = true ↔ ['\r', '\n'] <:+: cs := by
  fun_induction hasWindowsBreak cs with
  | case1 rest => exact iff_of_true rfl ⟨[], rest, rfl⟩
  | case2 c rest hno ih =>
    rw [ih, List.infix_cons_iff, or_iff_right]
    rintro ⟨after, heq⟩
    obtain ⟨rfl, hrest⟩ := List.cons.inj heq
    exact hno after rfl hrest.symm
  | case3 => exact iff_of_false (by decide) (by decide)

variable {m : Module}

/-- The line break of a module is the Windows one exactly where the module shows one. -/
theorem isWindows_lineBreak_iff :
    IsWindows (lineBreak m).toList ↔ ∃ lead ∈ breakSamples m, ['\r', '\n'] <:+: lead.toList := by
  have hany : (breakSamples m).any (hasWindowsBreak ·.toList) = true ↔
      ∃ lead ∈ breakSamples m, ['\r', '\n'] <:+: lead.toList := by
    simp only [List.any_eq_true, hasWindowsBreak_iff]
  rw [← hany, lineBreak]
  split
  · next hbreak => exact iff_of_true (by decide) hbreak
  · next hbreak => exact iff_of_false (by decide) hbreak

theorem noReturn_lineBreak (h : ∀ lead ∈ breakSamples m, '\r' ∉ lead.toList) :
    '\r' ∉ (lineBreak m).toList := by
  rw [lineBreak, if_neg]
  · decide
  · intro hany
    obtain ⟨lead, hmem, hbreak⟩ := List.any_eq_true.mp hany
    exact h lead hmem ((hasWindowsBreak_iff.mp hbreak).subset (by decide))

/-- Line breaks may be put in anywhere. -/
theorem breaks_lineBreak (hP : BreakLaw P) (m : Module) (h : P (lineBreak m).toList)
    (hasPackage : Bool) : Breaks (P ·.toList) hasPackage (lineBreak m) := by
  have hblank : P (blankLine (lineBreak m)).toList := by
    rw [blankLine, String.toList_append]
    exact hP.append h h
  refine ⟨h, hblank, fun {lead} _ hlead => ?_, fun {lead} _ hlead => ?_⟩
  · rw [ensureBlankLine]
    split
    · exact hlead
    · split
      · rw [String.toList_append]
        exact hP.append h hlead
      · rw [String.toList_append]
        exact hP.append hblank hlead
  · obtain ⟨rest, hsplit, hbelow, hends⟩ := splitHeader_append (lineBreak m) lead
    rw [hsplit] at hlead
    -- The header does not end with a carriage return.
    have hcut : (splitHeader (lineBreak m) lead).1.toList.getLast? ≠ some '\r' := by
      rcases hends with hnil | ⟨front, hfront⟩
      · rw [hnil]
        decide
      · rw [← hfront, List.getLast?_append, getLast?_blankLine, Option.some_or]
        decide
    rw [hbelow]
    exact ⟨hP.left hlead, hP.append hblank (hP.right (.inl hcut) hlead)⟩

end Imports

/-! ### Imports -/

/-- The property holds of all trivia and texts of the import. -/
def Import.Obeys (P : List Char → Prop) (i : Import) : Prop := ∀ t ∈ i.tokens, t.Obeys P

theorem Import.obeys_single (hP : BreakLaw P) (id : NodeId) {name : String} (h : P name.toList) :
    (Import.single id "" name).Obeys P := by
  have hempty : P "".toList := hP.unbroken (List.forall_mem_nil _)
  have hspace : P " ".toList := hP.unbroken (by decide)
  have hname : ∀ t ∈ nameTokens " " name, t.Obeys P := by
    have hbehind := behind_dottedTokens hP " " (hP.segments h)
    rw [nameTokens]
    cases hsegments : Name.segments name with
    | nil => exact List.forall_mem_nil _
    | cons s ss =>
      rw [hsegments] at hbehind
      exact List.forall_mem_cons.mpr ⟨⟨hspace, hbehind.1⟩, hbehind.2⟩
  have hkeyword : P "import".toList := hP.unbroken (by decide)
  have hsemi : P ";".toList := hP.unbroken (by decide)
  refine List.forall_mem_cons.mpr ⟨⟨hempty, hkeyword⟩, ?_⟩
  exact List.forall_mem_append.mpr ⟨List.forall_mem_nil _, List.forall_mem_append.mpr
    ⟨hname, List.forall_mem_singleton.mpr ⟨hempty, hsemi⟩⟩⟩

theorem Imports.leadLaw_obeys (P : List Char → Prop) : LeadLaw (Import.Obeys P) (P ·.toList) where
  lead hi := (hi _ List.mem_cons_self).1
  withLead hi hlead := by
    obtain ⟨hhead, htail⟩ := List.forall_mem_cons.mp hi
    exact List.forall_mem_cons.mpr ⟨⟨hlead, hhead.2⟩, htail⟩

/-! ### Modules -/

/-- The property holds of all trivia and texts that the module is written with. -/
structure Module.Obeys (P : List Char → Prop) (m : Module) : Prop where
  package : ∀ p ∈ m.package, ∀ t ∈ p.tokens, t.Obeys P
  imports : ∀ i ∈ m.imports, i.Obeys P
  types : ∀ d ∈ m.types, P d.lead.toList ∧ ∀ t ∈ TypeDecl.tokens { d with lead := "" }, t.Obeys P
  eof : P m.eof.toList

namespace Module

variable {m : Module}

/-- **A source with the property is read as a module with the property.** -/
theorem obeys_parse (hP : BreakLaw P) {source : String} (hparse : Module.parse source = .ok m)
    (hsource : P source.toList) : m.Obeys P := by
  obtain ⟨hspell, hscans, hwf⟩ := parse_sound hparse
  rw [hspell, hP.spell_iff hscans] at hsource
  obtain ⟨htokens, heof⟩ := hsource
  rw [tokens, List.forall_mem_append, List.forall_mem_append] at htokens
  obtain ⟨hpackage, himports, htypes⟩ := htokens
  refine ⟨fun p hp => ?_, fun i hi t ht => ?_, fun d hd => ?_, heof⟩
  · rw [Option.mem_def.mp hp] at hpackage
    exact hpackage
  · exact himports t (List.mem_flatMap.mpr ⟨i, hi, ht⟩)
  · obtain ⟨t, ts, hself, hrow⟩ := TypeDecl.exists_tokens (hwf.types d hd)
    have hall : ∀ u ∈ d.tokens, u.Obeys P := fun u hu => htypes u (List.mem_flatMap.mpr ⟨d, hd, hu⟩)
    rw [hself] at hall
    obtain ⟨ht, hts⟩ := List.forall_mem_cons.mp hall
    rw [hrow]
    exact ⟨ht.1, List.forall_mem_cons.mpr ⟨⟨hP.unbroken (List.forall_mem_nil _), ht.2⟩, hts⟩⟩

namespace Obeys

/-- **What is printed of a module with the property has the property.** -/
theorem toList_print (hP : BreakLaw P) (hm : m.Obeys P) : P m.print.toList := by
  have hpackage : P (spell (optionTokens Package.tokens m.package)) := by
    cases hp : m.package with
    | none => exact hP.unbroken (List.forall_mem_nil _)
    | some p => exact hP.spell (hm.package p hp)
  have himports : P (spell (m.imports.flatMap Import.tokens)) := by
    refine hP.spell fun t ht => ?_
    obtain ⟨i, hi, ht⟩ := List.mem_flatMap.mp ht
    exact hm.imports i hi t ht
  have htypes : P (m.types.flatMap fun d => spell d.tokens) := by
    refine hP.flatMap fun d hd => ?_
    obtain ⟨hlead, hrow⟩ := hm.types d hd
    have hself := d.spell_withLead d.lead
    obtain ⟨_, _, _, _, _, _, _, _, _, _⟩ := d
    rw [hself]
    exact hP.append hlead (hP.spell hrow)
  rw [← spell_flatMap] at htypes
  rw [Module.toList_print, Module.tokens, spell_append, spell_append]
  exact hP.append (hP.append hpackage (hP.append himports htypes)) hm.eof

/-- Other types may inherit the property. -/
theorem withTypes {σ : Type} {s s' : σ} {types : List TypeDecl} (hm : m.Obeys P)
    (h : Each (inheritsDecl P) s m.types s' types) : Obeys P { m with types } := by
  refine ⟨hm.package, hm.imports, ?_, hm.eof⟩
  have hall := hm.types
  generalize m.types = old at h hall
  induction h with
  | nil => exact List.forall_mem_nil _
  | cons hx _ ih =>
    obtain ⟨⟨hlead, hrow⟩, hall⟩ := List.forall_mem_cons.mp hall
    obtain ⟨hsame, hinherits⟩ := hx
    exact List.forall_mem_cons.mpr ⟨⟨hsame ▸ hlead, (hinherits "").obeys hrow⟩, ih hall⟩

theorem breakSamples (hm : m.Obeys P) : ∀ lead ∈ breakSamples m, P lead.toList := by
  rw [Imports.breakSamples, List.forall_mem_append, List.forall_mem_append]
  refine ⟨⟨fun lead hlead => ?_, fun lead hlead => ?_⟩, List.forall_mem_singleton.mpr hm.eof⟩
  · obtain ⟨i, hi, rfl⟩ := List.mem_map.mp hlead
    exact (Imports.leadLaw_obeys P).lead (hm.imports i hi)
  · obtain ⟨d, hd, rfl⟩ := List.mem_map.mp hlead
    exact (hm.types d hd).1

/-- **Bringing the imports in line keeps the property**: the line breaks of the module have it, or no import
is added, or one in the place of all others. -/
theorem reconcile (hP : BreakLaw P) (hm : m.Obeys P) {symbols : SymbolTable} (hsymbols : symbols.Obeys P)
    {s : PassState} (hasked : ∀ name ∈ s.additions.toList, P name.toList) {out : Module}
    {changes : ImportChanges} (h : m.reconcile symbols s = .ok (out, changes))
    (hbreaks : P (lineBreak m).toList ∨ changes.added = [] ∨
      changes.added.length = 1 ∧ m.imports ≠ [] ∧ changes.removed = m.imports.map (·.name)) :
    out.Obeys P := by
  obtain ⟨plan, hplan, hadded, ⟨_, _, rfl⟩ | rfl⟩ := Module.reconcile_cases h
  · exact ⟨hm.package, hm.imports, hm.types, hm.eof⟩
  have hmarked : ((Imports.Demand.ofPass m symbols s).marked plan).map (·.1) = m.imports :=
    Imports.Demand.marked_map_fst plan
  rw [reconcile_removed_eq_iff h hplan, ← hmarked, ne_eq, List.map_eq_nil_iff, hadded] at hbreaks
  generalize (Imports.Demand.ofPass m symbols s).marked plan = marked at hmarked hbreaks ⊢
  have himports : ∀ q ∈ marked, q.1.Obeys P := fun q hq =>
    hm.imports q.1 (hmarked ▸ List.mem_map_of_mem hq)
  have hnames : ∀ name ∈ plan.additions.toList, ∀ id, (Import.single id "" name).Obeys P := by
    intro name hname id
    obtain ⟨asked, hin, hfull⟩ := (Imports.Demand.plan_cases hplan).2.1 name hname
    exact Import.obeys_single hP id (hsymbols asked name (hasked asked hin) hfull)
  have hfirst : ∀ t ∈ m.types.head?.map (·.lead), P t.toList := by
    intro t ht
    obtain ⟨d, hd, rfl⟩ := Option.map_eq_some_iff.mp ht
    exact (hm.types d (List.mem_of_head? hd)).1
  obtain ⟨himports, lead, hlead, htypes⟩ := (Imports.leadLaw_obeys P).carryOut himports hfirst hnames
    (hbreaks.imp_left (Imports.breaks_lineBreak hP m · _)) s.nextId
  refine ⟨hm.package, himports, ?_, hm.eof⟩
  rw [htypes]
  have hall := hm.types
  cases hds : m.types with
  | nil => exact List.forall_mem_nil _
  | cons d ds =>
    rw [hds] at hall
    obtain ⟨⟨hself, hrow⟩, hall⟩ := List.forall_mem_cons.mp hall
    refine List.forall_mem_cons.mpr ⟨⟨?_, hrow⟩, hall⟩
    cases lead with
    | none => exact hself
    | some lead => exact hlead lead rfl

end Obeys

/-- The text of a package and of imports does not end with a carriage return. -/
theorem getLast?_spell_imports (p : Option Package) (imports : List Import) :
    (spell (optionTokens Package.tokens p ++ imports.flatMap Import.tokens)).getLast? ≠ some '\r' := by
  have hsemi (ts : List Token) (lead : Trivia) :
      (spell (ts ++ [symbol lead ";"])).getLast? ≠ some '\r' := by
    simp [spell_append]
  rcases List.eq_nil_or_concat imports with rfl | ⟨front, i, rfl⟩
  · cases p with
    | none => decide
    | some p =>
      have hend : optionTokens Package.tokens (some p) ++ [].flatMap Import.tokens
          = (word p.lead "package" :: nameTokens p.nameLead p.name) ++ [symbol p.semi ";"] := by
        simp [optionTokens, Package.tokens]
      rw [hend]
      exact hsemi _ _
  · have hend : optionTokens Package.tokens p ++ (front.concat i).flatMap Import.tokens
        = (optionTokens Package.tokens p ++ (front.flatMap Import.tokens ++ word i.lead "import" ::
          (optionTokens (fun lead => [word lead "static"]) i.staticLead ++ (nameTokens i.nameLead i.name
            ++ wildcardTokens i.wildcard)))) ++ [symbol i.semi ";"] := by
      simp [Import.tokens, Import.tailTokens]
    rw [hend]
    exact hsemi _ _

/-- **In a text with the property, the trivia in front of the imports and of the first type have it**, whatever
else the text is. -/
theorem leads_of_print (hP : BreakLaw P) (h : P m.print.toList) :
    (∀ i ∈ m.imports, P i.lead.toList) ∧ ∀ d ds, m.types = d :: ds → P d.lead.toList := by
  have hbehind (front : List Import) (lead rest : List Char) (htext : m.print.toList =
      spell (optionTokens Package.tokens m.package ++ front.flatMap Import.tokens) ++ (lead ++ rest)) :
      P lead := by
    rw [htext] at h
    exact hP.left (hP.right (.inl (getLast?_spell_imports m.package front)) h)
  constructor
  · intro i hi
    obtain ⟨front, back, himports⟩ := List.append_of_mem hi
    refine hbehind front i.lead.toList ("import".toList ++ (spell i.tailTokens
      ++ (spell (back.flatMap Import.tokens ++ m.types.flatMap TypeDecl.tokens) ++ m.eof.toList))) ?_
    rw [toList_print, tokens, himports]
    simp [spell_append, Import.tokens]
  · intro d ds htypes
    have hself := d.spell_withLead d.lead
    refine hbehind m.imports d.lead.toList (spell (TypeDecl.tokens { d with lead := "" })
      ++ (spell (ds.flatMap TypeDecl.tokens) ++ m.eof.toList)) ?_
    rw [toList_print, tokens, htypes, List.flatMap_cons, ← List.append_assoc, spell_append, spell_append,
      ← List.append_assoc d.lead.toList, ← hself]
    obtain ⟨_, _, _, _, _, _, _, _, _, _⟩ := d
    simp

/-- Imports are added to modules with types only. -/
theorem types_ne_nil_of_added {symbols : SymbolTable} {s : PassState} {out : Module}
    {changes : ImportChanges} (h : m.reconcile symbols s = .ok (out, changes))
    (hadded : changes.added ≠ []) : m.types ≠ [] := by
  obtain ⟨plan, hplan, hsame, _⟩ := reconcile_cases h
  rw [hsame] at hadded
  obtain ⟨name, hname⟩ := List.exists_mem_of_ne_nil _ hadded
  obtain ⟨_, hunsatisfied, _⟩ := (Imports.Demand.plan_cases hplan).1.additions name hname
  simp only [Imports.Demand.isSatisfied, Bool.or_eq_false_iff, Bool.not_eq_false'] at hunsatisfied
  obtain ⟨⟨⟨⟨hused, _⟩, _⟩, _⟩, _⟩ := hunsatisfied
  obtain ⟨_, _, hmention, _⟩ := mem_usedNamesExcept.mp (List.contains_iff_mem.mp hused)
  intro hnil
  rw [hnil] at hmention
  cases hmention

/-- **Only so is the property kept**: where the text afterwards has it, the line breaks of the module have it,
or no import is added, or one in the place of all others. -/
theorem lineBreak_of_reconcile (hP : BreakLaw P) {symbols : SymbolTable} {s : PassState} {out : Module}
    {changes : ImportChanges} (h : m.reconcile symbols s = .ok (out, changes)) (hout : P out.print.toList) :
    P (lineBreak m).toList ∨ changes.added = [] ∨
      changes.added.length = 1 ∧ m.imports ≠ [] ∧ changes.removed = m.imports.map (·.name) := by
  by_cases hadded : changes.added = []
  · exact .inr (.inl hadded)
  by_cases hone : changes.added.length = 1 ∧ m.imports ≠ [] ∧ changes.removed = m.imports.map (·.name)
  · exact .inr (.inr hone)
  have htypes := types_ne_nil_of_added h hadded
  obtain ⟨plan, hplan, hsame, ⟨hnone, _, _⟩ | rfl⟩ := reconcile_cases h
  · exact absurd (hsame.trans hnone) hadded
  have hmarked : ((Imports.Demand.ofPass m symbols s).marked plan).map (·.1) = m.imports :=
    Imports.Demand.marked_map_fst plan
  rw [reconcile_removed_eq_iff h hplan, ← hmarked, ne_eq, List.map_eq_nil_iff] at hone
  rw [hsame] at hadded hone
  -- A line break that has been put in stands where the property is passed on to it.
  have hleads := leads_of_print hP hout
  have hblank (h : P (blankLine (lineBreak m)).toList) : P (lineBreak m).toList := by
    rw [blankLine, String.toList_append] at h
    exact hP.left h
  refine .inl ?_
  rcases Imports.carryOut_hasBreak s.nextId htypes hadded hone with
    ⟨i, hi, hsingle | hdouble⟩ | ⟨d, ds, htypes, rest, hbelow⟩
  · exact hsingle ▸ hleads.1 i hi
  · exact hblank (hdouble ▸ hleads.1 i hi)
  · have hlead := hleads.2 d ds htypes
    rw [← hbelow] at hlead
    exact hblank (hP.left hlead)

end Module

end Migration
