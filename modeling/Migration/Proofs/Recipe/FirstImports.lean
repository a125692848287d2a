import Migration.Proofs.Imports.Header
import Migration.Proofs.Recipe.Readable
import Migration.Proofs.Rule.Reworded

/-!
# The first imports of a module

A module without a package and without imports gets its first ones below the header of the file. Where
the header is closed, what is printed is read with exactly these imports; where it is not, the imports
stand inside a comment, and what is printed is read without any (`Module.parse_carryOut`). So the header
decides for every leaf, whatever becomes of the types (`Recipe.parse_first_imports_iff`).
-/

namespace Migration

open Imports (lineBreak carryOut withFirstLead)
open Scan (Scannable isClosed)

variable {m : Module} {types : List TypeDecl} {names : List String} {nextId : NodeId}

/-- A text that is written with the tokens of a module that can be read has the imports of the module. -/
theorem Module.parse_of_spell (hwf : m.WellFormed) (hscans : Scannable m.tokens m.eof.toList)
    (text : String) (htext : text.toList = spell m.tokens ++ m.eof.toList) :
    ∃ m', Module.parse text = .ok m' ∧ m'.imports.map (·.name) = m.imports.map (·.name) := by
  obtain ⟨m', hparse, hsame⟩ := parse_of_print hwf hscans
  rw [← Module.toList_print, String.toList_inj] at htext
  refine ⟨m', by rw [htext, hparse], ?_⟩
  have himports := congrArg (fun n : Module => n.imports.map (·.name)) hsame
  simpa [Module.unnumbered, Function.comp_def] using himports

/-- A module without a package is read with its imports when these can be read, and its types can be read
as others. -/
theorem Module.parse_of_readAs (hpackage : m.package = none) (himports : ∀ i ∈ m.imports, i.Readable)
    (hread : ReadAs m.types types) (hscans : Scannable (types.flatMap TypeDecl.tokens) m.eof.toList) :
    ∃ m', Module.parse m.print = .ok m' ∧ m'.imports.map (·.name) = m.imports.map (·.name) := by
  refine Module.parse_of_spell (m := { m with types })
    ⟨by simp [hpackage], fun i hi => (himports i hi).wellFormed, hread.wellFormed⟩ ?_ m.print ?_
  · exact scannable_module.mpr ⟨by simp [hpackage], fun i hi => (himports i hi).scans, hscans⟩
  · rw [Module.toList_print, Module.tokens, Module.tokens, hread.tokens_eq]

/-- **The first imports are read exactly if the header above them is closed.** -/
theorem Module.parse_carryOut (hpackage : m.package = none) (hread : ReadAs m.types types)
    (hscans : Scannable (types.flatMap TypeDecl.tokens) m.eof.toList) (hnames : names ≠ [])
    (hdotted : ∀ name ∈ names, isDottedText false name = true) :
    ∃ m', Module.parse (carryOut m [] names nextId).print = .ok m' ∧
      (m'.imports.map (·.name) = (carryOut m [] names nextId).imports.map (·.name) ↔
        isClosed m.fileHeader) := by
  have hclosed : ∀ lead ∈ m.types.head?.map (·.lead), isClosed lead := by
    rw [← hread.head?_lead]
    exact isClosed_firstLead hread.wellFormed hscans
  by_cases hheader : isClosed m.fileHeader
  · obtain ⟨first, hfirst, htypes⟩ :=
      Imports.isClosed_carryOut nextId hpackage hnames hheader hclosed
    obtain ⟨m', hparse, hsame⟩ := Module.parse_of_readAs (m := carryOut m [] names nextId) hpackage
      (Imports.readable_carryOut hpackage hnames hdotted hheader) (htypes ▸ hread.withFirstLead first)
      (scannable_withFirstLead hread.wellFormed hfirst hscans)
    exact ⟨m', hparse, iff_of_true hsame hheader⟩
  · obtain ⟨lead, hlead, hspell⟩ :=
      Imports.spell_carryOut nextId hpackage hnames hdotted hheader hclosed
    -- What is printed is the text of a module without imports.
    have hread' := hread.withFirstLead (some lead)
    have hscans' : Scannable ((withFirstLead (some lead) types).flatMap TypeDecl.tokens) m.eof.toList :=
      scannable_withFirstLead hread.wellFormed (fun _ h => Option.some.inj h ▸ hlead) hscans
    obtain ⟨m', hparse, hnone⟩ := Module.parse_of_spell
      (m := { m with imports := [], types := withFirstLead (some lead) types })
      ⟨by simp [hpackage], List.forall_mem_nil _, hread'.wellFormed⟩
      (scannable_module.mpr ⟨by simp [hpackage], List.forall_mem_nil _, hscans'⟩)
      (carryOut m [] names nextId).print (by
        rw [Module.toList_print, hspell, Module.tokens, hpackage, hread'.tokens_eq]
        rfl)
    refine ⟨m', hparse, iff_of_false (fun hsame => ?_) hheader⟩
    obtain ⟨i, is, himports, _⟩ := Imports.carryOut_leads nextId hpackage hnames
    rw [hnone, himports] at hsame
    cases hsame

/-! ### Leaves -/

theorem Outline.unmodified_withFirstLead {lead : Option Trivia} {ds : List TypeDecl} :
    Unmodified ((withFirstLead lead ds).map TypeDecl.outline) ↔ Unmodified (ds.map TypeDecl.outline) := by
  rw [Unmodified, Imports.collect_withFirstLead (fun _ => rfl), Unmodified]

theorem Module.fileHeader_withTypes (h : types.map (·.lead) = m.types.map (·.lead)) :
    fileHeader { m with types } = m.fileHeader := by
  have hhead : types.head?.map (·.lead) = m.types.head?.map (·.lead) := by
    rw [← List.head?_map, h, List.head?_map]
  have hsamples : Imports.breakSamples { m with types } = Imports.breakSamples m := by
    simp only [Imports.breakSamples, h]
  rw [fileHeader, fileHeader, lineBreak, lineBreak, hsamples, hhead]

theorem Module.unmodified_reconcile {out : Module} {symbols : SymbolTable} {s : PassState}
    {changes : ImportChanges} (h : m.reconcile symbols s = .ok (out, changes))
    (hout : Outline.Unmodified [out.outline]) : Outline.Unmodified (m.types.map TypeDecl.outline) := by
  have htypes := hout.types
  obtain ⟨plan, _, _, ⟨_, _, rfl⟩ | rfl⟩ := Module.reconcile_cases h
  · exact htypes
  · rwa [Imports.carryOut_types, Outline.unmodified_withFirstLead] at htypes

/-- What is brought in line without imports and without a package is read with its first imports exactly
if there are none or the header of the file is closed. -/
theorem Module.parse_reconcile {out : Module} (hpackage : m.package = none) (himports : m.imports = [])
    (hread : ReadAs m.types types) (hscans : Scannable (m.types.flatMap TypeDecl.tokens) m.eof.toList)
    {symbols : SymbolTable} (hsymbols : symbols.Readable) {s : PassState}
    (hasked : ∀ name ∈ s.additions.toList, isDottedText false name = true) {changes : ImportChanges}
    (h : m.reconcile symbols s = .ok (out, changes)) :
    ∃ m', Module.parse out.print = .ok m' ∧ (m'.imports.map (·.name) = out.imports.map (·.name) ↔
      out.imports = [] ∨ isClosed m.fileHeader) := by
  obtain ⟨plan, hplan, _, hout⟩ := Module.reconcile_cases h
  rw [← hread.tokens_eq] at hscans
  have hmarked : (Imports.Demand.ofPass m symbols s).marked plan = [] := by
    rw [Imports.Demand.marked, Imports.Demand.ofPass, himports]
    rfl
  rw [hmarked] at hout
  by_cases hnames : plan.additions.toList = []
  · -- nothing is imported
    obtain ⟨hnone, hpackage', hsame, heof⟩ : out.imports = [] ∧ out.package = none
        ∧ out.types = m.types ∧ out.eof = m.eof := by
      obtain ⟨_, _, rfl⟩ | rfl := hout
      · exact ⟨himports, hpackage, rfl, rfl⟩
      · rw [hnames]
        exact ⟨Imports.carryOut_imports, hpackage, Imports.carryOut_nil, rfl⟩
    obtain ⟨m', hparse, hnames'⟩ := Module.parse_of_readAs hpackage'
      (by rw [hnone]; exact List.forall_mem_nil _) (hsame ▸ hread) (heof ▸ hscans)
    exact ⟨m', hparse, iff_of_true hnames' (.inl hnone)⟩
  · obtain ⟨hnil, _⟩ | rfl := hout
    · exact absurd hnil hnames
    have hdotted := Imports.Demand.readable_plan hsymbols hasked hplan
    obtain ⟨i, is, hcons, _⟩ := Imports.carryOut_leads s.nextId hpackage hnames
    rw [hcons, or_iff_right (List.cons_ne_nil i is), ← hcons]
    exact Module.parse_carryOut hpackage hread hscans hnames hdotted

/-- **An import that is added to a module without a package and without imports is an import exactly if the
header of the file is closed.** Where a constant moves, an expression may come to look like a variable,
which does no harm unless it starts with a modifier. -/
theorem Recipe.parse_first_imports_iff {source : String} (hparse : Module.parse source = .ok m)
    (hpackage : m.package = none) (himports : m.imports = []) {spec : RecipeSpec} {r : Recipe}
    {pass : SymbolTable → Module → Pass PassState (Option Module)} (hbuild : spec.build = .ok r)
    (hr : r.pass? = some pass) (hnames : AllAscii spec.names) {index : TypeIndex}
    (hindex : ∀ name ∈ index.toList, Name.isAscii name = true ∧ Name.isTypeName name = true)
    {a : Applied} (h : r.apply index m = some (.ok a))
    (hunmodified : (∃ c, r = .changeSupertype c) ∨ Outline.Unmodified [a.module.outline]) :
    ∃ m', Module.parse a.module.print = .ok m' ∧
      (m'.imports.map (·.name) = a.module.imports.map (·.name) ↔
        a.module.imports = [] ∨ isClosed m.fileHeader) := by
  obtain ⟨_, hscans, hwf⟩ := parse_sound hparse
  have htypes := (scannable_module.mp hscans).2.2
  have hsymbols : (SymbolTable.ofModule m index).Readable :=
    SymbolTable.readable_ofModule hwf fun name hname =>
      Name.isDottedText_of_isTypeName (hindex name hname).1 (hindex name hname).2
  have hread := RecipeSpec.readable_build spec hnames r hbuild
  rw [apply_of_pass? hr] at h
  obtain ⟨⟨changed, s⟩, hrun, h⟩ := Option.map_eq_some_iff.mp h
  dsimp only at h
  split at h
  case h_1 =>
    cases h
    obtain ⟨m', hparse', hsame⟩ := Module.parse_of_readAs hpackage
      (by rw [himports]; exact List.forall_mem_nil _) (ReadAs.refl hwf.types) htypes
    exact ⟨m', hparse', iff_of_true hsame (.inl himports)⟩
  case h_2 changed =>
    split at h
    case h_1 => cases h
    case h_2 out imports hreconcile =>
      cases h
      obtain ⟨types, hout, hleads, hreworded, hreads⟩ := pass_reworded hr hread hsymbols hrun hwf.types
      cases hout
      have hscans' := (hreworded.scannable htypes).1
      obtain ⟨_, hreads⟩ := hreads hscans'.lexical
        (hunmodified.imp_right (Module.unmodified_reconcile hreconcile))
      obtain ⟨m', hparse', hiff⟩ := Module.parse_reconcile (m := { m with types }) hpackage himports hreads
        hscans' hsymbols (readable_additions hr hread hrun) hreconcile
      rw [Module.fileHeader_withTypes hleads] at hiff
      exact ⟨m', hparse', hiff⟩

/-- A comment with an empty line in it, which takes the new import in. -/
theorem Recipe.parse_first_imports_torn : ∃ r m a m',
    RecipeSpec.build (.changeSupertype "Vehicle" "com.new.Car") = .ok r ∧
    Module.parse "/* a\n\nb */\nclass X extends Vehicle { void f() { go(); } }" = .ok m ∧
    r.apply (.ofList []) m = some (.ok a) ∧
    a.module.print
      = "/* a\n\nimport com.new.Car;\n\nb */\nclass X extends Car { void f() { go(); } }" ∧
    Module.parse a.module.print = .ok m' ∧ a.module.imports.map (·.name) = ["com.new.Car"] ∧
    m'.imports.map (·.name) ≠ a.module.imports.map (·.name) := by
  have hcheck : (do
      let r ← (RecipeSpec.build (.changeSupertype "Vehicle" "com.new.Car")).toOption
      let m ← (Module.parse "/* a\n\nb */\nclass X extends Vehicle { void f() { go(); } }").toOption
      let outcome ← r.apply (.ofList []) m
      let a ← outcome.toOption
      return r.pass?.isSome && m.package.isNone && m.imports.isEmpty
        && m.fileHeader.toList == ['/', '*', ' ', 'a', '\n', '\n']
        && ((Outline.collect Node.block? [a.module.outline]).all (·.statements.all Stmt.startsBare))
        && a.module.print
          == "/* a\n\nimport com.new.Car;\n\nb */\nclass X extends Car { void f() { go(); } }"
        && a.module.imports.map (·.name) == ["com.new.Car"] : Option Bool) = some true := by
    decide +kernel
  obtain ⟨r, hr, hcheck⟩ := Option.bind_eq_some_iff.mp hcheck
  obtain ⟨m, hm, hcheck⟩ := Option.bind_eq_some_iff.mp hcheck
  obtain ⟨outcome, happly, hcheck⟩ := Option.bind_eq_some_iff.mp hcheck
  obtain ⟨a, ha, hcheck⟩ := Option.bind_eq_some_iff.mp hcheck
  simp only [pure, Option.some.injEq, Bool.and_eq_true, List.all_eq_true, beq_iff_eq,
    Option.isNone_iff_eq_none, List.isEmpty_iff, Option.isSome_iff_exists] at hcheck
  obtain ⟨⟨⟨⟨⟨⟨⟨pass, hpass⟩, hpackage⟩, himports⟩, hheader⟩, hstatements⟩, hprint⟩, hnames⟩ := hcheck
  rw [eq_ok_of_toOption ha] at happly
  have hunmodified : Outline.Unmodified [a.module.outline] := fun b hb s hs =>
    Stmt.unmodified_of_startsBare (hstatements b hb s hs)
  obtain ⟨m', hparse, hiff⟩ := Recipe.parse_first_imports_iff (eq_ok_of_toOption hm) hpackage himports
    (eq_ok_of_toOption hr) hpass (by unfold AllAscii; decide +kernel) (by decide +kernel) happly
    (.inr hunmodified)
  refine ⟨r, m, a, m', eq_ok_of_toOption hr, eq_ok_of_toOption hm, happly, hprint, hparse, hnames,
    fun hsame => ?_⟩
  rcases hiff.mp hsame with hnone | hclosed
  · rw [hnone] at hnames
    cases hnames
  · rw [isClosed, hheader] at hclosed
    cases hclosed with
    | blank hc _ => cases hc
    | block h => exact absurd (h 0).asterisk_mem (by decide)

end Migration
