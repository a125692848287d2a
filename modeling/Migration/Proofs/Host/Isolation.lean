import Mathlib.Data.List.Perm.Basic
import Migration.Proofs.Host.Schedule
import Migration.Proofs.Token.Scanning

/-!
# Files do not disturb each other

Applying a manifest answers with one result for each file and leaves the files with some texts. The order
in which the tasks of the files take their moves is free (`Answers`), and neither the answer nor the texts
depend on it: both are what the command computes file by file (`answers_iff_runApply`).

Main result: a file comes to what its own text, the recipes and the known types make of it, whatever
becomes of the others, and the order in which the files are given cannot be seen in the known types
(`runApply_any_order`). A file given twice is written twice with the same text.
-/

namespace Migration

/-- What applying a manifest can answer, and what it can leave in the files: the tasks of the files are run
to their end, in any order. -/
inductive Answers (read : FileReader) (o : ApplyOptions) :
    Except CommandError ApplyResponse → FileReader → Prop
  | noFiles (hfiles : o.files = []) : Answers read o (.error .noInputFiles) read
  | noPipeline {e : CommandError} (hfiles : o.files ≠ [])
    (hpipeline : loadPipeline read o.config = .error e) : Answers read o (.error e) read
  | noTypes {pipeline : Recipe} {e : CommandError} (hfiles : o.files ≠ [])
    (hpipeline : loadPipeline read o.config = .ok pipeline)
    (htypes : loadTypes read o.types = .error e) : Answers read o (.error e) read
  | ran {pipeline : Recipe} {loaded : TypeIndex} {b : Batch} {results : List FileResult}
    (hfiles : o.files ≠ []) (hpipeline : loadPipeline read o.config = .ok pipeline)
    (htypes : loadTypes read o.types = .ok loaded)
    (hrun : Batch.Run pipeline loaded o.write (.start read o.files) b) (hresults : b.Finished results) :
    Answers read o (.ok ⟨pipeline.name, results⟩) b.contents

/-- The files after several of them are replaced, one after the other. -/
def FileReader.writeAll (read : FileReader) (writes : List (String × String)) : FileReader :=
  writes.foldl (fun contents w => contents.put w.1 (some w.2)) read

/-- What a command answers and leaves in the files. -/
def settle (read : FileReader) :
    Except CommandError (ApplyResponse × List (String × String)) →
      Except CommandError ApplyResponse × FileReader
  | .error e => (.error e, read)
  | .ok (response, writes) => (.ok response, read.writeAll writes)

variable {read contents : FileReader} {o : ApplyOptions} {pipeline : Recipe} {loaded known : TypeIndex}
  {write : Bool} {files : List String} {response : Except CommandError ApplyResponse}

/-! ### File by file -/

/-- Each file has the result that it comes to. -/
abbrev ResultsOf (pipeline : Recipe) (known : TypeIndex) (write : Bool) (read : FileReader) :
    List String → List FileResult → Prop :=
  List.Forall₂ fun path result => ∃ text, FileEnds pipeline known write path (read path) result text

theorem fileEnds_rightUnique : Relator.RightUnique fun path result =>
    ∃ text, FileEnds pipeline known write path (read path) result text := by
  rintro path result result' ⟨_, h⟩ ⟨_, h'⟩
  exact (h.unique h').1

theorem ResultsOf.exists_fileEnds {results : List FileResult}
    (h : ResultsOf pipeline known write read files results) :
    ∀ path ∈ files, ∃ result text, FileEnds pipeline known write path (read path) result text :=
  exists_forall₂_iff.mp ⟨results, h⟩

theorem exists_ends (h : ∀ path ∈ files, ∃ result text,
    FileEnds pipeline known write path (read path) result text) :
    ∃ ends : List (FileResult × Option String),
      List.Forall₂ (fun path e => FileEnds pipeline known write path (read path) e.1 e.2) files ends :=
  exists_forall₂_iff.mpr fun path hpath => Prod.exists.mpr (h path hpath)

theorem mapM_applyToFile_iff {ends : List (FileResult × Option String)} :
    (files.map fun path => (path, loadModule read path)).mapM
        (fun p => applyToFile pipeline known write p.1 p.2) = some ends ↔
      List.Forall₂ (fun path e => FileEnds pipeline known write path (read path) e.1 e.2) files ends := by
  induction files generalizing ends with
  | nil => simp [eq_comm]
  | cons path files ih =>
    rw [List.map_cons, List.mapM_cons, List.forall₂_cons_left_iff]
    constructor
    · intro h
      obtain ⟨e, he, h⟩ := Option.bind_eq_some_iff.mp h
      obtain ⟨rest, hrest, h⟩ := Option.bind_eq_some_iff.mp h
      cases h
      exact ⟨e, rest, fileEnds_iff.mpr he, ih.mp hrest, rfl⟩
    · rintro ⟨e, rest, he, hrest, rfl⟩
      rw [fileEnds_iff.mp he, ih.mpr hrest]
      rfl

/-- Writing the files back one after the other leaves each of them with its own text. -/
theorem FileReader.UpdatedAt.writeAll {done : String → Prop} {ends : List (FileResult × Option String)}
    (h : read.UpdatedAt pipeline known write done contents)
    (hends : List.Forall₂ (fun path e => FileEnds pipeline known write path (read path) e.1 e.2) files ends) :
    read.UpdatedAt pipeline known write (fun p => done p ∨ p ∈ files)
      (contents.writeAll (writesOf ends)) := by
  induction hends generalizing done contents with
  | nil => exact h.congr fun p => by simp
  | @cons path e files ends he _ ih =>
    have hput : contents.writeAll (writesOf (e :: ends)) =
        (contents.put path e.2).writeAll (writesOf ends) := by
      rcases htext : e.2 with _ | text
      · simp [writesOf, htext, FileReader.put]
      · simp [writesOf, htext, FileReader.writeAll, he.path_eq]
    rw [hput]
    exact (ih (h.put he)).congr fun p => by rw [List.mem_cons, or_assoc]

/-- What applying recipes to some files comes to. -/
def ComesTo (pipeline : Recipe) (known : TypeIndex) (write : Bool) (read : FileReader)
    (files : List String) (response : Except CommandError ApplyResponse) (contents : FileReader) : Prop :=
  ∃ results, response = .ok ⟨pipeline.name, results⟩ ∧
    ResultsOf pipeline known write read files results ∧
    read.UpdatedAt pipeline known write (· ∈ files) contents

theorem ComesTo.unique {response' : Except CommandError ApplyResponse} {contents' : FileReader}
    (h : ComesTo pipeline known write read files response contents)
    (h' : ComesTo pipeline known write read files response' contents') :
    response = response' ∧ contents = contents' := by
  obtain ⟨results, rfl, hresults, hupdated⟩ := h
  obtain ⟨results', rfl, hresults', hupdated'⟩ := h'
  obtain rfl := fileEnds_rightUnique.forall₂ hresults hresults'
  exact ⟨rfl, hupdated.unique hupdated'⟩

/-- Files in another order have the same results in that order, and are left with the same texts. -/
theorem ComesTo.perm {given given' : ApplyResponse} {files' : List String} {contents' : FileReader}
    (h : ComesTo pipeline known write read files (.ok given) contents)
    (h' : ComesTo pipeline known write read files' (.ok given') contents') (hperm : files.Perm files') :
    given.files.Perm given'.files ∧ contents = contents' := by
  obtain ⟨results, heq, hresults, hupdated⟩ := h
  obtain ⟨results', heq', hresults', hupdated'⟩ := h'
  cases heq
  cases heq'
  refine ⟨List.rel_perm_imp fileEnds_rightUnique hresults hresults' hperm, ?_⟩
  exact hupdated.unique (hupdated'.congr fun path => hperm.mem_iff.symm)

/-- Tasks that are all finished have come to what their files come to. -/
theorem Batch.Sound.comesTo {b : Batch} {results : List FileResult}
    (hb : b.Sound pipeline loaded write read files) (hfiles : files ≠ []) (hresults : b.Finished results) :
    ComesTo pipeline (knownTypes read loaded files) write read files (.ok ⟨pipeline.name, results⟩)
      b.contents := by
  cases hb with
  | @reading tasks paths agrees =>
    -- nothing is finished while files are read, so there would be no files
    cases hresults with
    | nil => exact absurd paths.symm hfiles
    | cons hresult _ =>
      rcases agrees _ List.mem_cons_self with heq | heq <;> rw [hresult] at heq <;> cases heq
  | @changing contents tasks paths agrees updated =>
    subst paths
    have hagrees := (List.forall₂_and_left _ _).mpr ⟨agrees, hresults⟩
    refine ⟨results, rfl, ?_, updated.congr fun p => ?_⟩
    · rw [ResultsOf, List.forall₂_map_left_iff]
      refine hagrees.imp fun t result h => ?_
      obtain ⟨h, hresult⟩ := h
      rw [hresult] at h
      exact h
    · rw [List.mem_map]
      constructor
      · rintro ⟨result, hmem⟩
        exact ⟨_, hmem, rfl⟩
      · rintro ⟨⟨path, t⟩, hmem, rfl⟩
        obtain ⟨result, hresult⟩ := exists_forall₂_iff.mp ⟨_, hresults⟩ _ hmem
        exact ⟨result, (hresult : t = _) ▸ hmem⟩

section Loaded

variable (hfiles : o.files ≠ []) (hpipeline : loadPipeline read o.config = .ok pipeline)
  (htypes : loadTypes read o.types = .ok loaded)

include hfiles hpipeline htypes

theorem runApply_eq : runApply read o =
    ((o.files.map fun path => (path, loadModule read path)).mapM fun p =>
      applyToFile pipeline (knownTypes read loaded o.files) o.write p.1 p.2).map fun ends =>
        .ok (⟨pipeline.name, ends.map (·.1)⟩, writesOf ends) := by
  have hsome : o.files.isEmpty = false := by simpa using hfiles
  simp only [runApply, hsome, hpipeline, htypes, knownTypes]
  rfl

theorem settle_comesTo {ends : List (FileResult × Option String)}
    (hends : List.Forall₂ (fun path e =>
      FileEnds pipeline (knownTypes read loaded o.files) o.write path (read path) e.1 e.2) o.files ends) :
    ∃ response contents, (runApply read o).map (settle read) = some (response, contents) ∧
      ComesTo pipeline (knownTypes read loaded o.files) o.write read o.files response contents := by
  refine ⟨.ok ⟨pipeline.name, ends.map (·.1)⟩, read.writeAll (writesOf ends), ?_, ends.map (·.1), rfl, ?_, ?_⟩
  · rw [runApply_eq hfiles hpipeline htypes, mapM_applyToFile_iff.mpr hends]
    rfl
  · exact List.forall₂_map_right_iff.mpr (hends.imp fun path e he => ⟨e.2, he⟩)
  · exact (FileReader.UpdatedAt.writeAll (.none fun _ (h : False) => h) hends).congr
      fun p => by simp

theorem runApply_comesTo : (runApply read o).map (settle read) = some (response, contents) ↔
    ComesTo pipeline (knownTypes read loaded o.files) o.write read o.files response contents := by
  constructor
  · intro h
    have hrun := h
    rw [runApply_eq hfiles hpipeline htypes, Option.map_map] at hrun
    obtain ⟨ends, hends, _⟩ := Option.map_eq_some_iff.mp hrun
    obtain ⟨response', contents', h', hcomes⟩ :=
      settle_comesTo hfiles hpipeline htypes (mapM_applyToFile_iff.mp hends)
    cases h.symm.trans h'
    exact hcomes
  · intro hcomes
    have ⟨results, _, hresults, _⟩ := hcomes
    obtain ⟨ends, hends⟩ := exists_ends hresults.exists_fileEnds
    obtain ⟨response', contents', h', hcomes'⟩ := settle_comesTo hfiles hpipeline htypes hends
    obtain ⟨rfl, rfl⟩ := hcomes.unique hcomes'
    exact h'

theorem answers_comesTo : Answers read o response contents ↔
    ComesTo pipeline (knownTypes read loaded o.files) o.write read o.files response contents := by
  constructor
  · intro h
    cases h with
    | noFiles h => exact absurd h hfiles
    | noPipeline _ h => cases hpipeline.symm.trans h
    | noTypes _ h h' => cases htypes.symm.trans h'
    | ran _ h h' hrun hresults =>
      cases hpipeline.symm.trans h
      cases htypes.symm.trans h'
      exact (Batch.sound_start.run hrun).comesTo hfiles hresults
  · intro hcomes
    have ⟨results, _, hresults, _⟩ := hcomes
    obtain ⟨b, results', hrun, hfinished⟩ := Batch.sound_start.exists_run hresults.exists_fileEnds
    have hcomes' := (Batch.sound_start.run hrun).comesTo hfiles hfinished
    obtain ⟨rfl, rfl⟩ := hcomes.unique hcomes'
    exact .ran hfiles hpipeline htypes hrun hfinished

end Loaded

/-- **Whatever order the tasks take, the command answers and leaves what it computes file by file.** -/
theorem answers_iff_runApply : Answers read o response contents ↔
    (runApply read o).map (settle read) = some (response, contents) := by
  -- without files, recipes or types the command fails before there is a task
  by_cases hfiles : o.files = []
  · have hrun : runApply read o = some (.error .noInputFiles) := by simp [runApply, hfiles]
    rw [hrun]
    constructor
    · intro h
      cases h <;> first | rfl | contradiction
    · rintro ⟨⟩
      exact .noFiles hfiles
  have hsome : o.files.isEmpty = false := by simpa using hfiles
  rcases hpipeline : loadPipeline read o.config with e | pipeline
  · have hrun : runApply read o = some (.error e) := by simp [runApply, hsome, hpipeline]
    rw [hrun]
    constructor
    · intro h
      cases h <;> simp_all [settle]
    · rintro ⟨⟩
      exact .noPipeline hfiles hpipeline
  rcases htypes : loadTypes read o.types with e | loaded
  · have hrun : runApply read o = some (.error e) := by simp [runApply, hsome, hpipeline, htypes]
    rw [hrun]
    constructor
    · intro h
      cases h <;> simp_all [settle]
    · rintro ⟨⟩
      exact .noTypes hfiles hpipeline htypes
  rw [answers_comesTo hfiles hpipeline htypes, runApply_comesTo hfiles hpipeline htypes]

section Loaded

variable (hpipeline : loadPipeline read o.config = .ok pipeline)
  (htypes : loadTypes read o.types = .ok loaded)

include hpipeline htypes

theorem answers_iff_comesTo : Answers read o response contents ↔
    if o.files = [] then response = .error .noInputFiles ∧ contents = read
    else ComesTo pipeline (knownTypes read loaded o.files) o.write read o.files response contents := by
  split
  · next hfiles =>
    constructor
    · intro h
      cases h <;> first | exact ⟨rfl, rfl⟩ | contradiction
    · rintro ⟨rfl, rfl⟩
      exact .noFiles hfiles
  · next hfiles => exact answers_comesTo hfiles hpipeline htypes

theorem exists_answers_iff : (∃ response contents, Answers read o response contents) ↔
    ∀ path ∈ o.files, ∃ result text,
      FileEnds pipeline (knownTypes read loaded o.files) o.write path (read path) result text := by
  by_cases hfiles : o.files = []
  · rw [hfiles]
    exact iff_of_true ⟨_, _, .noFiles hfiles⟩ (by simp)
  simp only [answers_comesTo hfiles hpipeline htypes]
  constructor
  · rintro ⟨_, _, results, _, hresults, _⟩
    exact hresults.exists_fileEnds
  · intro h
    obtain ⟨ends, hends⟩ := exists_ends h
    obtain ⟨response, contents, _, hcomes⟩ := settle_comesTo hfiles hpipeline htypes hends
    exact ⟨response, contents, hcomes⟩

end Loaded

/-- At every moment each file is as it was or as its own change leaves it. -/
theorem Batch.Sound.eq_or_written {b : Batch} (hb : b.Sound pipeline loaded write read files)
    (path : String) : b.contents path = read path ∨ path ∈ files ∧ ∃ result text,
      FileEnds pipeline (knownTypes read loaded files) write path (read path) result (some text) ∧
        b.contents path = .ok text := by
  cases hb with
  | reading => exact .inl rfl
  | changing paths agrees updated =>
    refine (updated.eq_or_written path).imp_right fun ⟨⟨result, hmem⟩, hwritten⟩ => ?_
    exact ⟨paths ▸ List.mem_map_of_mem (f := (·.1)) hmem, hwritten⟩

/-- **The files of a command do not disturb each other.** With the recipes and the list of types loaded
there are known types, those of the list and those that the files declare, such that for the files in any
order:

* whatever order the tasks take, the answer and the texts left behind are those that the command computes;
* the results stand in the order of the files, and each is what its own text comes to; a file is changed
  only where it is to be written and its own change went through and changed it, and then it holds what its
  changed module prints;
* there is an answer unless the change of some file that can be parsed has no end;
* the results of the files as they were given are the same ones in another order, and the same texts are
  left behind;
* at every moment each file is as it was or as its own change leaves it, and the tasks can still be brought
  to their end if there is an answer; no run goes on for ever. -/
theorem runApply_any_order (hpipeline : loadPipeline read o.config = .ok pipeline)
    (htypes : loadTypes read o.types = .ok loaded) :
    ∃ known : TypeIndex,
      (∀ name, name ∈ known.toList ↔ name ∈ loaded.toList ∨ ∃ path ∈ o.files, ∃ m,
        loadModule read path = .ok m ∧ ∃ d ∈ m.declaredTypes, d.qualifiedName = name) ∧
      ∀ files, files.Perm o.files →
        (∀ response contents, Answers read { o with files } response contents ↔
          (runApply read { o with files }).map (settle read) = some (response, contents)) ∧
        (∀ response contents, Answers read { o with files } response contents ↔
          if files = [] then response = .error .noInputFiles ∧ contents = read
          else ComesTo pipeline known o.write read files response contents) ∧
        ((∃ response contents, Answers read { o with files } response contents) ↔
          ∀ path ∈ files, ∀ m, loadModule read path = .ok m → (pipeline.apply known m).isSome) ∧
        (∀ given response contents contents', Answers read o (.ok given) contents →
          Answers read { o with files } (.ok response) contents' →
            given.files.Perm response.files ∧ contents = contents') ∧
        (∀ b, Batch.Run pipeline loaded o.write (.start read files) b →
          (∀ path, b.contents path = read path ∨ path ∈ files ∧ ∃ result text,
            FileEnds pipeline known o.write path (read path) result (some text) ∧
              b.contents path = .ok text) ∧
          ((∃ response contents, Answers read { o with files } response contents) →
            ∃ b' results, Batch.Run pipeline loaded o.write b b' ∧ b'.Finished results)) ∧
        WellFounded fun b' b => Batch.Step pipeline loaded o.write b b' := by
  refine ⟨knownTypes read loaded o.files, fun name => mem_knownTypes, fun files hperm => ?_⟩
  have hknown : knownTypes read loaded o.files = knownTypes read loaded files := knownTypes_perm hperm.symm
  rw [hknown]
  have hanswers {response contents} : Answers read { o with files } response contents ↔ _ :=
    answers_iff_comesTo (o := { o with files }) hpipeline htypes
  have hexists := exists_answers_iff (o := { o with files }) hpipeline htypes
  refine ⟨fun _ _ => answers_iff_runApply, fun _ _ => hanswers, ?_, ?_, ?_, Batch.wellFounded_step⟩
  · rw [hexists]
    exact forall₂_congr fun path _ => exists_fileEnds_iff
  · intro given response contents contents' hgiven hresponse
    rw [answers_iff_comesTo hpipeline htypes, hknown] at hgiven
    rw [hanswers] at hresponse
    by_cases hfiles : files = []
    · simp [hfiles] at hresponse
    · have hgivenFiles : o.files ≠ [] := fun h => hfiles (by simpa [h] using hperm)
      rw [if_neg hgivenFiles] at hgiven
      rw [if_neg hfiles] at hresponse
      exact hgiven.perm hresponse hperm.symm
  · intro b hrun
    have hb := Batch.sound_start.run hrun
    exact ⟨hb.eq_or_written, fun h => hb.exists_run (hexists.mp h)⟩

/-- A manifest, a list of types, a file that is changed and one that cannot be parsed. -/
def fewFiles : FileReader := fun path =>
  if path = "manifest.json" then .ok ("\x7b\"units\": [\x7b\"type\": \"ChangeSupertype\", " ++
    "\"old\": \"Vehicle\", \"new\": \"p.Car\"\x7d]\x7d")
  else if path = "types.json" then .ok "[\"p.Car\"]"
  else if path = "A.java" then .ok "package p; class A extends Vehicle {}"
  else if path = "B.java" then .ok "class B"
  else .error .notFound

/-- One file is given twice beside one that fails. In another order of the files, and whatever order the
tasks take, the first is written and the second is left alone. -/
theorem runApply_any_order_fewFiles : ∃ pipeline loaded response contents,
    loadPipeline fewFiles "manifest.json" = .ok pipeline ∧
    loadTypes fewFiles (some "types.json") = .ok loaded ∧
    Answers fewFiles ⟨"manifest.json", some "types.json", true, ["B.java", "A.java", "A.java"]⟩
      (.ok response) contents ∧
    response.files.map (·.error?.isSome) = [true, false, false] ∧
    contents "A.java" = .ok "package p; class A extends Car {}" ∧ contents "B.java" = .ok "class B" := by
  let o : ApplyOptions := ⟨"manifest.json", some "types.json", true, ["A.java", "B.java", "A.java"]⟩
  let text := "package p; class A extends Car {}"
  have hcheck : (do
      let pipeline ← (loadPipeline fewFiles o.config).toOption
      let loaded ← (loadTypes fewFiles o.types).toOption
      let ran ← (runApply fewFiles { o with files := ["B.java", "A.java", "A.java"] }).bind Except.toOption
      return decide (pipeline.name = "Pipeline" ∧ loaded.toList = ["p.Car"]) &&
        decide (ran.1.files.map (·.error?.isSome) = [true, false, false]) &&
        decide (ran.2 = [("A.java", text), ("A.java", text)]) : Option Bool) = some true := by
    decide +kernel
  obtain ⟨pipeline, hpipeline, hcheck⟩ := Option.bind_eq_some_iff.mp hcheck
  obtain ⟨loaded, htypes, hcheck⟩ := Option.bind_eq_some_iff.mp hcheck
  obtain ⟨⟨response, writes⟩, hran, hcheck⟩ := Option.bind_eq_some_iff.mp hcheck
  obtain ⟨outcome, hrun, hok⟩ := Option.bind_eq_some_iff.mp hran
  rw [eq_ok_of_toOption hok] at hrun
  simp only [pure, Option.some.injEq, Bool.and_eq_true, decide_eq_true_eq] at hcheck
  obtain ⟨⟨_, hresults⟩, rfl⟩ := hcheck
  obtain ⟨known, _, hany⟩ :=
    runApply_any_order (o := o) (eq_ok_of_toOption hpipeline) (eq_ok_of_toOption htypes)
  obtain ⟨hanswers, _⟩ := hany ["B.java", "A.java", "A.java"] (List.Perm.swap ..)
  refine ⟨pipeline, loaded, response, _, eq_ok_of_toOption hpipeline, eq_ok_of_toOption htypes,
    (hanswers _ _).mpr (by rw [hrun]; rfl), hresults, ?_, ?_⟩
  · rfl
  · rfl

end Migration
