import Migration.Proofs.Imports.Moving
import Migration.Proofs.Rule.Readable

/-!
# Edited imports can be read

A row that ends with a semicolon is scanned by itself (`scannable_semicolon`), so whether the tokens of
a module are found again is a matter of its package, of each single import and of its types
(`scannable_module`). Editing imports moves trivia, which no comment leaves open, from one import to
another and puts in line breaks; an import can be read with any closed trivia in front of it
(`Imports.leadLaw_readable`). In a module with a package the only other trivia that is touched stands in
front of the first type.

Main result: a module stays readable when its imports are brought in line (`Module.Readable.reconcile`).
-/

namespace Migration

open Outline (Tight)
open Scan (Scannable Alike isClosed)
open Token (word symbol)

/-! ### Rows that end with a semicolon -/

theorem cuts_semicolon (semi : Trivia) (next : List Char) :
    Scan.Cuts (symbol semi ";").kind (symbol semi ";").text.toList next := by
  rw [Token.symbol_kind, Token.symbol_text]
  exact Scan.cuts_mark (.inl rfl) next

/-- **What ends with a semicolon is scanned by itself.** -/
theorem scannable_semicolon {ts us : List Token} {semi : Trivia} {tail : List Char} :
    Scannable (ts ++ symbol semi ";" :: us) tail ↔
      Scannable (ts ++ [symbol semi ";"]) [] ∧ Scannable us tail := by
  induction ts with
  | nil =>
    have hcut := cuts_semicolon semi
    exact ⟨fun h => ⟨⟨h.1, hcut _, fun _ => rfl⟩, h.2.2⟩, fun h => ⟨h.1.1, hcut _, h.2⟩⟩
  | cons t ts ih =>
    -- The next token is cut off by its first character, which the semicolon has at the latest.
    have hnext : Alike false (spell (ts ++ symbol semi ";" :: us) ++ tail)
        (spell (ts ++ [symbol semi ";"]) ++ []) := by
      simp only [spell_append, spell_cons, List.append_assoc, Token.symbol_text]
      exact Alike.append _ (Alike.append _ (.inl rfl))
    rw [List.cons_append, List.cons_append, Scannable, Scannable, ih]
    constructor
    · rintro ⟨hlead, hcut, hts, hus⟩
      exact ⟨⟨hlead, hcut.alike hnext fun _ => rfl, hts⟩, hus⟩
    · rintro ⟨⟨hlead, hcut, hts⟩, hus⟩
      exact ⟨hlead, hcut.alike hnext.symm fun _ => rfl, hts, hus⟩

theorem scannable_package {p : Package} {us : List Token} {tail : List Char} :
    Scannable (p.tokens ++ us) tail ↔ Scannable p.tokens [] ∧ Scannable us tail := by
  have hrow (us : List Token) : p.tokens ++ us
      = (word p.lead "package" :: nameTokens p.nameLead p.name) ++ symbol p.semi ";" :: us := by
    simp [Package.tokens]
  have hself := hrow []
  rw [List.append_nil] at hself
  rw [hrow, scannable_semicolon, hself]

theorem scannable_import {i : Import} {us : List Token} {tail : List Char} :
    Scannable (i.tokens ++ us) tail ↔ Scannable i.tokens [] ∧ Scannable us tail := by
  have hrow (us : List Token) : i.tokens ++ us
      = (word i.lead "import" :: (optionTokens (fun lead => [word lead "static"]) i.staticLead
        ++ (nameTokens i.nameLead i.name ++ wildcardTokens i.wildcard))) ++ symbol i.semi ";" :: us := by
    simp [Import.tokens, Import.tailTokens]
  have hself := hrow []
  rw [List.append_nil] at hself
  rw [hrow, scannable_semicolon, hself]

theorem scannable_imports {is : List Import} {us : List Token} {tail : List Char} :
    Scannable (is.flatMap Import.tokens ++ us) tail ↔
      (∀ i ∈ is, Scannable i.tokens []) ∧ Scannable us tail := by
  induction is with
  | nil => exact (and_iff_right (List.forall_mem_nil _)).symm
  | cons i is ih =>
    rw [List.flatMap_cons, List.append_assoc, scannable_import, ih, List.forall_mem_cons, and_assoc]

/-- **The tokens of a module are found again** when those of its parts are. -/
theorem scannable_module {m : Module} {tail : List Char} :
    Scannable m.tokens tail ↔ (∀ p ∈ m.package, Scannable p.tokens [])
      ∧ (∀ i ∈ m.imports, Scannable i.tokens [])
      ∧ Scannable (m.types.flatMap TypeDecl.tokens) tail := by
  rw [Module.tokens]
  cases m.package with
  | none => simp [optionTokens, scannable_imports]
  | some p => simp [optionTokens, scannable_package, scannable_imports]

/-! ### Trivia -/

theorem isClosed_append {a b : Trivia} (ha : isClosed a) (hb : isClosed b) : isClosed (a ++ b) := by
  rw [isClosed, String.toList_append]
  exact ha.append hb

theorem isClosed_lineBreak (m : Module) : isClosed (Imports.lineBreak m) := by
  rw [Imports.lineBreak]
  split
  · exact .blank rfl (.blank rfl .done)
  · exact .blank rfl .done

theorem isClosed_blankLine {eol : String} (h : isClosed eol) : isClosed (Imports.blankLine eol) :=
  isClosed_append h h

theorem isClosed_ensureBlankLine {eol : String} {lead : Trivia} (heol : isClosed eol)
    (hlead : isClosed lead) : isClosed (Imports.ensureBlankLine eol lead) := by
  rw [Imports.ensureBlankLine]
  split
  · exact hlead
  · split
    · exact isClosed_append heol hlead
    · exact isClosed_append (isClosed_blankLine heol) hlead

/-! ### Imports -/

/-- The import can be read. -/
structure Import.Readable (i : Import) : Prop where
  wellFormed : i.WellFormed
  scans : Scannable i.tokens []

namespace Import.Readable

variable {i : Import}

theorem lead (h : i.Readable) : isClosed i.lead := h.scans.1

theorem withLead (h : i.Readable) {lead : Trivia} (hlead : isClosed lead) :
    (i.withLead lead).Readable := ⟨h.wellFormed, hlead, h.scans.2⟩

theorem single {name : String} (h : isDottedText false name = true) (id : NodeId) :
    (Import.single id "" name).Readable := by
  refine ⟨h, Scan.isClosed_empty, ?_, ?_⟩
  · refine @Scan.cuts_word "import".toList _ (by decide) fun c hc => ?_
    have hspace : c = ' ' := by
      cases hs : Name.segments name with
      | nil => exact absurd hs (Name.segments_ne_nil name)
      | cons s ss =>
        simp [Import.single, Import.tailTokens, nameTokens, hs, dottedTokens, optionTokens] at hc
        exact hc.symm
    rw [hspace]
    decide
  · rw [isDottedText_eq] at h
    have hspace : isClosed " " := .blank (by decide) .done
    refine scannable_dotted hspace (isChainText_ne_nil h) (isChainText_words h) ?_
      ⟨Scan.isClosed_empty, cuts_semicolon _ _, fun _ => rfl⟩
    intro c hc
    simp only [Import.single, wildcardTokens, Bool.false_eq_true, if_false, List.nil_append,
      spell_cons] at hc
    cases hc
    rfl

end Import.Readable

namespace Imports

theorem leadLaw_readable : LeadLaw Import.Readable isClosed :=
  ⟨Import.Readable.lead, fun hi hlead => hi.withLead hlead⟩

/-- Below a package line breaks leave trivia closed. -/
theorem breaks_isClosed {eol : String} (heol : isClosed eol) : Breaks isClosed true eol :=
  ⟨heol, isClosed_blankLine heol, fun _ => isClosed_ensureBlankLine heol, nofun⟩

end Imports

/-! ### Modules -/

/-- The module can be read again from its text, its accesses are tight, and it has a package. -/
structure Module.Readable (m : Module) : Prop where
  package : m.package.isSome = true
  wellFormed : m.WellFormed
  tight : Tight (m.types.map TypeDecl.outline)
  scans : Scannable m.tokens m.eof.toList

/-- The trivia in front of a declaration stands in front of its first token. -/
theorem TypeDecl.exists_tokens {d : TypeDecl} (h : d.WellFormed) :
    ∃ (t : Token) (ts : List Token), d.tokens = { t with lead := d.lead } :: ts
      ∧ ∀ lead, TypeDecl.tokens { d with lead } = { t with lead } :: ts := by
  obtain ⟨id, lead, modifiers, kindLead, kind, name, params, extending, implementing, body⟩ := d
  have hbare := h.1.bare
  obtain ⟨t, ts, hrow, hlead⟩ : ∃ (t : Token) (ts : List Token), modifierTokens modifiers
      ++ (headerTokens kindLead kind name params extending implementing ++ body.tokens) = t :: ts
      ∧ t.lead = "" := by
    cases modifiers with
    | nil => exact ⟨_, _, rfl, hbare (word kindLead "") rfl⟩
    | cons i is => exact ⟨_, _, rfl, hbare (word i.lead i.name) rfl⟩
  have hall (lead : Trivia) : TypeDecl.tokens ⟨id, lead, modifiers, kindLead, kind, name, params,
      extending, implementing, body⟩ = { t with lead } :: ts := by
    rw [TypeDecl.tokens, hrow, prependLead, hlead, String.append_empty]
  exact ⟨t, ts, hall lead, hall⟩

/-- Other trivia in front of the first type leaves the types readable. -/
theorem scannable_withFirstLead {ds : List TypeDecl} (hwf : ∀ d ∈ ds, d.WellFormed)
    {lead : Option Trivia} (hlead : ∀ t ∈ lead, isClosed t) {tail : List Char}
    (h : Scannable (ds.flatMap TypeDecl.tokens) tail) :
    Scannable ((Imports.withFirstLead lead ds).flatMap TypeDecl.tokens) tail := by
  cases ds with
  | nil => exact h
  | cons d ds =>
    cases lead with
    | none =>
      rw [Imports.withFirstLead_self]
      exact h
    | some lead =>
      obtain ⟨t, ts, hself, htokens⟩ := TypeDecl.exists_tokens (hwf d List.mem_cons_self)
      rw [List.flatMap_cons, hself] at h
      rw [Imports.withFirstLead, List.flatMap_cons, Option.getD_some, htokens]
      exact ⟨hlead lead rfl, h.2⟩

theorem isClosed_firstLead {ds : List TypeDecl} (hwf : ∀ d ∈ ds, d.WellFormed) {tail : List Char}
    (h : Scannable (ds.flatMap TypeDecl.tokens) tail) :
    ∀ t ∈ ds.head?.map (·.lead), isClosed t := by
  intro t ht
  cases ds with
  | nil => cases ht
  | cons d ds =>
    cases ht
    obtain ⟨t, ts, hself, _⟩ := TypeDecl.exists_tokens (hwf d List.mem_cons_self)
    rw [List.flatMap_cons, hself] at h
    exact h.1

theorem wellFormed_withFirstLead {ds : List TypeDecl} (hwf : ∀ d ∈ ds, d.WellFormed)
    (lead : Option Trivia) : ∀ d ∈ Imports.withFirstLead lead ds, d.WellFormed := by
  cases ds with
  | nil => exact hwf
  | cons d ds =>
    obtain ⟨hd, hds⟩ := List.forall_mem_cons.mp hwf
    refine List.forall_mem_cons.mpr ⟨?_, hds⟩
    obtain ⟨_, _, _, _, _, _, _, _, _, _⟩ := d
    exact hd

theorem tight_withFirstLead {ds : List TypeDecl} (h : Tight (ds.map TypeDecl.outline))
    (lead : Option Trivia) : Tight ((Imports.withFirstLead lead ds).map TypeDecl.outline) :=
  (Outline.accesses_congr (Imports.collect_withFirstLead (fun _ => rfl) lead ds)).mpr h

/-- What is planned to be imported can be read when what is asked for can. -/
theorem Imports.Demand.readable_plan {d : Demand} (hsymbols : d.symbols.Readable) {names : List String}
    (hnames : ∀ name ∈ names, isDottedText false name = true) {p : Plan} (h : d.plan names = .ok p) :
    ∀ full ∈ p.additions.toList, isDottedText false full = true := by
  intro full hfull
  obtain ⟨name, hname, hq⟩ := (plan_cases h).2.1 full hfull
  exact hsymbols name full (hnames name hname) hq

/-- **A module stays readable when its imports are brought in line.** -/
theorem Module.Readable.reconcile {m out : Module} (hm : m.Readable) {symbols : SymbolTable}
    (hsymbols : symbols.Readable) {s : PassState}
    (hasked : ∀ name ∈ s.additions.toList, isDottedText false name = true)
    {changes : ImportChanges} (h : m.reconcile symbols s = .ok (out, changes)) : out.Readable := by
  obtain ⟨hpackage, hwf, htight, hscans⟩ := hm
  obtain ⟨plan, hplan, _, ⟨_, _, rfl⟩ | rfl⟩ := Module.reconcile_cases h
  · exact ⟨hpackage, ⟨hwf.package, hwf.imports, hwf.types⟩, htight, hscans⟩
  obtain ⟨hp, himports, htypes⟩ := scannable_module.mp hscans
  have hnames := Imports.Demand.readable_plan hsymbols hasked hplan
  have hmarked : ∀ q ∈ (Imports.Demand.ofPass m symbols s).marked plan, q.1.Readable := by
    intro q hq
    obtain ⟨⟨i, k⟩, hi, rfl⟩ := List.mem_map.mp hq
    have hmem : i ∈ m.imports := List.mem_of_getElem? (List.mem_zipIdx_iff_getElem?.mp hi)
    exact ⟨hwf.imports i hmem, himports i hmem⟩
  obtain ⟨himports, lead, hlead, hout⟩ := Imports.leadLaw_readable.carryOut hmarked
    (isClosed_firstLead hwf.types htypes) (fun name hname id => .single (hnames name hname) id)
    (.inl (hpackage ▸ Imports.breaks_isClosed (isClosed_lineBreak m))) s.nextId
  refine ⟨hpackage, ⟨hwf.package, fun i hi => (himports i hi).wellFormed, ?_⟩, ?_, ?_⟩
  · exact hout ▸ wellFormed_withFirstLead hwf.types lead
  · exact hout ▸ tight_withFirstLead htight lead
  · exact scannable_module.mpr ⟨hp, fun i hi => (himports i hi).scans,
      hout ▸ scannable_withFirstLead hwf.types hlead htypes⟩

end Migration
