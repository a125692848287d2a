import Migration.Proofs.Grammar.RoundTrip
import Migration.Proofs.Imports.Readable
import Migration.Proofs.Recipe.Sequence
import Migration.Proofs.Text.Ascii
import Migration.Recipe.Manifest

/-!
# What a recipe writes can be read

A leaf that can be read keeps modules readable (`readable_leaf`): its pass respells the types, and
bringing the imports in line leaves them readable. So does every recipe, whether it succeeds or fails.
A manifest that builds and whose names are ASCII gives such a recipe (`Manifest.readable_build`), and
a source with a package and tight accesses is read as a readable module. The text of what comes out is
therefore a source again, and it is read as the module it was printed from
(`Manifest.parse_print_apply`).
-/

namespace Migration

open Outline (Tight)

/-! ### Leaves -/

namespace Recipe

theorem readable_of_writes {r : Recipe} (hread : r.Readable) {p : TypePattern}
    (hp : r.Writes p) : p.Readable := by
  cases r with
  | changeSupertype c =>
    cases hp
    exact hread
  | changeConstant t =>
    obtain ⟨c, hc, rfl⟩ := hp
    exact (hread c hc).newOwner
  | changeConstants t =>
    obtain ⟨c, hc, rfl⟩ := hp
    exact (hread c hc).newOwner
  | pipeline name recipes => cases hp

/-- The names that a pass asks for can be read. -/
theorem readable_additions {r : Recipe}
    {pass : SymbolTable → Module → Pass PassState (Option Module)} (hr : r.pass? = some pass)
    (hread : r.Readable) {symbols : SymbolTable} {m : Module} {changed : Option Module} {s : PassState}
    (hrun : pass symbols m (.start m) = some (changed, s)) :
    ∀ name ∈ s.additions.toList, isDottedText false name = true := by
  intro name hname
  obtain ⟨_, _, hasks, _⟩ := pass_changes hr hrun
  obtain hstart | ⟨p, hp, rfl, _⟩ := hasks name hname
  · cases hstart
  · exact readable_of_writes hread hp

variable {index : TypeIndex} (hindex : ∀ name ∈ index.toList, isDottedText false name = true)

include hindex

/-- **A leaf keeps modules readable.** -/
theorem readable_leaf {r : Recipe} {pass : SymbolTable → Module → Pass PassState (Option Module)}
    (hr : r.pass? = some pass) (hread : r.Readable) {m : Module} (hm : m.Readable) {a : Applied}
    (h : r.apply index m = some (.ok a)) : a.module.Readable := by
  have hsymbols := SymbolTable.readable_ofModule hm.wellFormed hindex
  rw [apply_of_pass? hr] at h
  obtain ⟨⟨changed, s⟩, hrun, h⟩ := Option.map_eq_some_iff.mp h
  dsimp only at h
  split at h
  case h_1 =>
    cases h
    exact hm
  case h_2 changed =>
    split at h
    case h_1 => cases h
    case h_2 out imports hreconcile =>
      cases h
      have hchanged : changed.Readable := by
        obtain ⟨types, hout, htight, hwf, htokens⟩ :=
          pass_readable hr hread hsymbols hrun hm.tight hm.wellFormed.types
        cases hout
        obtain ⟨hpackage, himports, htypes⟩ := scannable_module.mp hm.scans
        exact ⟨hm.package, ⟨hm.wellFormed.package, hm.wellFormed.imports, hwf⟩, htight,
          scannable_module.mpr ⟨hpackage, himports, (htokens.scannable htypes).1⟩⟩
      exact hchanged.reconcile hsymbols (readable_additions hr hread hrun) hreconcile

omit hindex

mutual

theorem readable_of_mem_leaves {u : Recipe} :
    (r : Recipe) → r.Readable → u ∈ r.leaves → u.Readable
  | .changeSupertype _, hread, hu => by
    rw [List.mem_singleton.mp hu]
    exact hread
  | .changeConstant _, hread, hu => by
    rw [List.mem_singleton.mp hu]
    exact hread
  | .changeConstants _, hread, hu => by
    rw [List.mem_singleton.mp hu]
    exact hread
  | .pipeline _ recipes, hread, hu => readable_of_mem_leavesAll recipes hread hu

theorem readable_of_mem_leavesAll {u : Recipe} :
    (rs : List Recipe) → ReadableAll rs → u ∈ leavesAll rs → u.Readable
  | [], _, hu => nomatch hu
  | r :: rs, hread, hu => by
    rcases List.mem_append.mp hu with hu | hu
    · exact readable_of_mem_leaves r hread.1 hu
    · exact readable_of_mem_leavesAll rs hread.2 hu

end

include hindex

/-- A recipe keeps modules readable, also where it fails. -/
theorem readable_apply {r : Recipe} (hread : r.Readable) {m : Module} (hm : m.Readable)
    {outcome : Except ApplyError Applied} (h : r.apply index m = some outcome) :
    (lastModule outcome).Readable := by
  refine apply_invariant (fun u hu m a hm ha => ?_) hm h
  obtain ⟨pass, hpass⟩ := exists_pass_of_mem_leaves r hu
  exact readable_leaf hindex hpass (readable_of_mem_leaves r hread hu) hm ha

end Recipe

/-! ### Configured names -/

theorem TypePattern.spelled_parse {field value : String} {p : TypePattern}
    (h : TypePattern.parse field value = .ok p) : p.spelled = value := by
  rw [parse] at h
  split at h
  · cases h
  · split at h
    · cases h
      rfl
    · cases h

theorem TypePattern.readable_parse {field value : String} (hascii : Name.isAscii value = true)
    {p : TypePattern} (h : TypePattern.parse field value = .ok p) : p.Readable := by
  have hspelled := spelled_parse h
  have hvalid := p.valid
  rw [hspelled] at hvalid
  rw [Readable, hspelled]
  exact Name.isDottedText_of_isTypeName hascii hvalid

theorem isIdentifier_of_checkMember {field value : String} (h : checkMember field value = .ok ⟨⟩) :
    Name.isIdentifier value = true := by
  rw [checkMember] at h
  split at h
  · cases h
  · split at h
    · assumption
    · cases h

/-- The names of a configured move. -/
def ConstantMapping.names (m : ConstantMapping) : List String :=
  [m.oldOwner, m.oldMember, m.newOwner, m.newMember]

mutual

/-- The names of types and members that a recipe is configured with. -/
def RecipeSpec.names : RecipeSpec → List String
  | .changeSupertype old new => [old, new]
  | .changeConstant mapping => mapping.names
  | .changeConstants mappings => mappings.flatMap ConstantMapping.names
  | .pipeline _ recipes => RecipeSpec.namesAll recipes
termination_by structural s => s

/-- The names of types and members that several recipes are configured with. -/
def RecipeSpec.namesAll : List RecipeSpec → List String
  | [] => []
  | s :: ss => s.names ++ RecipeSpec.namesAll ss
termination_by structural ss => ss

end

/-- The names of types and members that a manifest configures. -/
def Manifest.names (m : Manifest) : List String := RecipeSpec.namesAll m.recipes

/-- All names are ASCII. -/
def AllAscii (names : List String) : Prop := ∀ name ∈ names, Name.isAscii name = true

theorem allAscii_append {as bs : List String} :
    AllAscii (as ++ bs) ↔ AllAscii as ∧ AllAscii bs := List.forall_mem_append

theorem SupertypeChange.readable_ofNames {old new : String} (hascii : Name.isAscii new = true)
    {c : SupertypeChange} (h : ofNames old new = .ok c) : c.new.Readable := by
  obtain ⟨p, _, h⟩ := bind_eq_ok.mp h
  obtain ⟨q, hq, h⟩ := bind_eq_ok.mp h
  dsimp only at h
  split at h
  · cases h
  · cases h
    exact TypePattern.readable_parse hascii hq

theorem ConstantChange.readable_ofMapping {m : ConstantMapping} (hascii : AllAscii m.names)
    {c : ConstantChange} (h : ofMapping m = .ok c) : c.Readable := by
  obtain ⟨_, hascii⟩ := List.forall_mem_cons.mp hascii
  obtain ⟨holdMember, hascii⟩ := List.forall_mem_cons.mp hascii
  obtain ⟨hnewOwner, hascii⟩ := List.forall_mem_cons.mp hascii
  obtain ⟨hnewMember, _⟩ := List.forall_mem_cons.mp hascii
  obtain ⟨oldOwner, _, h⟩ := bind_eq_ok.mp h
  obtain ⟨_, hold, h⟩ := bind_eq_ok.mp h
  obtain ⟨newOwner, hnew, h⟩ := bind_eq_ok.mp h
  obtain ⟨_, hmember, h⟩ := bind_eq_ok.mp h
  dsimp only at h
  split at h
  · cases h
  · cases h
    exact ⟨Name.isNameText_of_isIdentifier holdMember (isIdentifier_of_checkMember hold),
      TypePattern.readable_parse hnewOwner hnew,
      Name.isNameText_of_isIdentifier hnewMember (isIdentifier_of_checkMember hmember)⟩

namespace ConstantTable

/-- What holds of every entry that is configured holds of every entry that is read. -/
theorem forall_readEntries {P : ConstantChange → Prop} {ms : List ConstantMapping}
    (hms : ∀ m ∈ ms, ∀ c, ConstantChange.ofMapping m = .ok c → P c)
    {earlier entries : List ConstantChange} (hearlier : ∀ c ∈ earlier, P c)
    (h : readEntries earlier ms = .ok entries) : ∀ c ∈ entries, P c := by
  induction ms generalizing earlier with
  | nil =>
    cases h
    exact hearlier
  | cons m ms ih =>
    obtain ⟨hm, hms⟩ := List.forall_mem_cons.mp hms
    obtain ⟨entry, hentry, h⟩ := bind_eq_ok.mp h
    dsimp only at h
    split at h
    · cases h
    · refine ih hms (fun c hc => ?_) h
      rcases List.mem_append.mp hc with hc | hc
      · exact hearlier c hc
      · rw [List.mem_singleton.mp hc]
        exact hm entry hentry

theorem readEntries_of_ofMappings {ms : List ConstantMapping} {t : ConstantTable}
    (h : ofMappings ms = .ok t) : readEntries [] ms = .ok t.entries := by
  rw [ofMappings] at h
  split at h
  · cases h
  · obtain ⟨entries, hentries, h⟩ := bind_eq_ok.mp h
    split at h
    · cases h
    · cases h
      exact hentries

/-- Configured members are identifiers. -/
theorem isIdentifier_newMember {ms : List ConstantMapping} {t : ConstantTable}
    (h : ofMappings ms = .ok t) : ∀ c ∈ t.entries, Name.isIdentifier c.newMember = true := by
  refine forall_readEntries (fun m _ c hc => ?_) (List.forall_mem_nil _) (readEntries_of_ofMappings h)
  obtain ⟨_, _, hc⟩ := bind_eq_ok.mp hc
  obtain ⟨_, _, hc⟩ := bind_eq_ok.mp hc
  obtain ⟨_, _, hc⟩ := bind_eq_ok.mp hc
  obtain ⟨_, hmember, hc⟩ := bind_eq_ok.mp hc
  dsimp only at hc
  split at hc
  · cases hc
  · cases hc
    exact isIdentifier_of_checkMember hmember

theorem readable_ofMappings {ms : List ConstantMapping}
    (hascii : AllAscii (ms.flatMap ConstantMapping.names)) {t : ConstantTable}
    (h : ofMappings ms = .ok t) : ∀ c ∈ t.entries, c.Readable := by
  refine forall_readEntries (fun m hm c hc => ?_) (List.forall_mem_nil _)
    (readEntries_of_ofMappings h)
  exact ConstantChange.readable_ofMapping
    (fun name hname => hascii name (List.mem_flatMap.mpr ⟨m, hm, hname⟩)) hc

end ConstantTable

theorem readable_buildPipeline {name : Option String} {rs : List Recipe}
    (hrs : Recipe.ReadableAll rs) {r : Recipe} (h : buildPipeline name rs = .ok r) :
    r.Readable := by
  rw [buildPipeline] at h
  split at h
  · cases h
  · cases h
    exact hrs

mutual

/-- A recipe that is configured with ASCII names writes names that can be read. -/
theorem RecipeSpec.readable_build : (spec : RecipeSpec) → AllAscii spec.names → (r : Recipe) →
    spec.build = .ok r → r.Readable
  | .changeSupertype old new, hascii, r, h => by
    obtain ⟨c, hc, h⟩ := bind_eq_ok.mp h
    cases h
    exact SupertypeChange.readable_ofNames (hascii new (by simp [names])) hc
  | .changeConstant mapping, hascii, r, h => by
    obtain ⟨t, ht, h⟩ := bind_eq_ok.mp h
    cases h
    refine ConstantTable.readable_ofMappings ?_ ht
    rw [List.flatMap_singleton]
    exact hascii
  | .changeConstants mappings, hascii, r, h => by
    obtain ⟨t, ht, h⟩ := bind_eq_ok.mp h
    cases h
    exact ConstantTable.readable_ofMappings hascii ht
  | .pipeline name specs, hascii, r, h => by
    obtain ⟨rs, hrs, h⟩ := bind_eq_ok.mp h
    exact readable_buildPipeline (RecipeSpec.readable_buildAll specs hascii rs hrs) h

theorem RecipeSpec.readable_buildAll : (specs : List RecipeSpec) → AllAscii (namesAll specs) →
    (rs : List Recipe) → buildAll specs = .ok rs → Recipe.ReadableAll rs
  | [], _, rs, h => by
    cases h
    trivial
  | spec :: specs, hascii, rs, h => by
    obtain ⟨hspec, hspecs⟩ := allAscii_append.mp hascii
    obtain ⟨r, hr, h⟩ := bind_eq_ok.mp h
    obtain ⟨rs, hrs, h⟩ := bind_eq_ok.mp h
    cases h
    exact ⟨RecipeSpec.readable_build spec hspec r hr,
      RecipeSpec.readable_buildAll specs hspecs rs hrs⟩

end

/-- **A manifest of ASCII names writes names that can be read.** -/
theorem Manifest.readable_build {m : Manifest} (hascii : AllAscii m.names) {r : Recipe}
    (h : m.build = .ok r) : r.Readable := by
  obtain ⟨rs, hrs, h⟩ := bind_eq_ok.mp h
  exact readable_buildPipeline (RecipeSpec.readable_buildAll m.recipes hascii rs hrs) h

/-! ### Sources -/

/-- A source with a package and tight accesses is read as a readable module. -/
theorem Module.readable_parse {source : String} {m : Module} (h : Module.parse source = .ok m)
    (hpackage : m.package.isSome = true) (htight : Tight [m.outline]) : m.Readable := by
  obtain ⟨_, hscans, hwf⟩ := parse_sound h
  exact ⟨hpackage, hwf, Outline.tight_module.mp htight, hscans⟩

/-- **What a manifest writes can be read again**, as the module that it was printed from, whether the
manifest succeeds or fails. -/
theorem Manifest.parse_print_apply {source : String} {m : Module}
    (hparse : Module.parse source = .ok m) (hpackage : m.package.isSome = true)
    (htight : Tight [m.outline]) {manifest : Manifest} {r : Recipe}
    (hbuild : manifest.build = .ok r) (hnames : AllAscii manifest.names) {index : TypeIndex}
    (hindex : ∀ name ∈ index.toList, Name.isAscii name = true ∧ Name.isTypeName name = true)
    {outcome : Except ApplyError Applied} (happly : r.apply index m = some outcome) :
    ∃ m', Module.parse (Recipe.lastModule outcome).print = .ok m'
      ∧ m'.unnumbered = (Recipe.lastModule outcome).unnumbered := by
  have hknown (name : String) (hname : name ∈ index.toList) : isDottedText false name = true :=
    Name.isDottedText_of_isTypeName (hindex name hname).1 (hindex name hname).2
  have hout := Recipe.readable_apply hknown (readable_build hnames hbuild)
    (Module.readable_parse hparse hpackage htight) happly
  exact parse_of_print hout.wellFormed hout.scans

/-- A superclass and a constant behind a dotted name, whose new package contains a keyword. -/
theorem Manifest.parse_print_apply_keyword : ∃ r m outcome m',
    Manifest.build ⟨none, [.changeSupertype "Vehicle" "q.Car",
      .changeConstant ⟨"o.Old", "MAX", "q.new.Limits", "TOP"⟩]⟩ = .ok r ∧
    Module.parse "package p; class A extends Vehicle { int x = o.Old.MAX; }" = .ok m ∧
    r.apply (.ofList ["p.Other"]) m = some outcome ∧
    (Recipe.lastModule outcome).print
      = "package p;\n\nimport q.Car;\n\n class A extends Car { int x = q.new.Limits.TOP; }" ∧
    Module.parse (Recipe.lastModule outcome).print = .ok m' ∧
    m'.unnumbered = (Recipe.lastModule outcome).unnumbered := by
  have hcheck : (do
      let r ← (Manifest.build ⟨none, [.changeSupertype "Vehicle" "q.Car",
        .changeConstant ⟨"o.Old", "MAX", "q.new.Limits", "TOP"⟩]⟩).toOption
      let m ← (Module.parse "package p; class A extends Vehicle { int x = o.Old.MAX; }").toOption
      let outcome ← r.apply (.ofList ["p.Other"]) m
      return (m.package.isSome && (Outline.collect Node.access? [m.outline]).all
          fun a => decide (a.dot = "" ∧ a.name.lead = ""))
        && (Recipe.lastModule outcome).print
          == "package p;\n\nimport q.Car;\n\n class A extends Car { int x = q.new.Limits.TOP; }"
        : Option Bool) = some true := by
    decide +kernel
  obtain ⟨r, hr, hcheck⟩ := Option.bind_eq_some_iff.mp hcheck
  obtain ⟨m, hm, hcheck⟩ := Option.bind_eq_some_iff.mp hcheck
  obtain ⟨outcome, happly, hcheck⟩ := Option.bind_eq_some_iff.mp hcheck
  simp only [pure, Option.some.injEq, Bool.and_eq_true, List.all_eq_true, decide_eq_true_eq,
    beq_iff_eq] at hcheck
  obtain ⟨⟨hpackage, htight⟩, hprint⟩ := hcheck
  obtain ⟨m', hparse, hsame⟩ := Manifest.parse_print_apply (eq_ok_of_toOption hm) hpackage htight
    (eq_ok_of_toOption hr) (by unfold AllAscii; decide +kernel) (by decide +kernel) happly
  exact ⟨r, m, outcome, m', eq_ok_of_toOption hr, eq_ok_of_toOption hm, happly, hprint, hparse,
    hsame⟩

end Migration
