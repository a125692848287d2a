import Mathlib.Algebra.GroupWithZero.Nat
import Mathlib.Data.List.Forall2
import Mathlib.Logic.Relation
import Migration.Host.Command
import Migration.Proofs.Scope.KnownTypes

/-!
# Tasks that run side by side

Applying a manifest gives every file a task of its own. First each task reads and parses its file, in any
order; when all are done, the types that the files declare become known; then each task works out the
change of its file and writes the file back, again in any order, and a task may stop between the two while
others go on. A step is one move of one task, and a run is any sequence of steps.

A task never looks at a file again after the first phase, and nothing is written before it. So what a task
can hold at any moment of a run is known from the files as they were (`Batch.Sound`, kept by every step),
and a run can only stop before its end at a change that has no end (`Batch.Sound.exists_run`).
-/

namespace Migration

theorem exists_forall₂_iff {α β : Type} {R : α → β → Prop} {xs : List α} :
    (∃ ys, List.Forall₂ R xs ys) ↔ ∀ x ∈ xs, ∃ y, R x y := by
  induction xs with
  | nil => simp
  | cons x xs ih =>
    rw [List.forall_mem_cons, ← ih]
    constructor
    · rintro ⟨_, _ | ⟨hx, hxs⟩⟩
      exact ⟨⟨_, hx⟩, _, hxs⟩
    · rintro ⟨⟨y, hx⟩, ys, hxs⟩
      exact ⟨y :: ys, .cons hx hxs⟩

/-! ### One file -/

/-- What a file comes to, by its text when the command starts: the result, and the text to write back if
there is one. -/
inductive FileEnds (pipeline : Recipe) (known : TypeIndex) (write : Bool) (path : String) :
    Except FileError String → FileResult → Option String → Prop
  | unreadable {cause : FileError} :
    FileEnds pipeline known write path (.error cause) ⟨path, .error (.file path cause)⟩ none
  | malformed {source : String} {cause : ParseError} (hparse : Module.parse source = .error cause) :
    FileEnds pipeline known write path (.ok source) ⟨path, .error (.parse path cause)⟩ none
  | unresolved {source : String} {m : Module} {e : ApplyError}
    (hparse : Module.parse source = .ok m) (happly : pipeline.apply known m = some (.error e)) :
    FileEnds pipeline known write path (.ok source)
      ⟨path, .error (.resolution path e.recipe e.cause)⟩ none
  | kept {source : String} {m : Module} {a : Applied} (hparse : Module.parse source = .ok m)
    (happly : pipeline.apply known m = some (.ok a)) (hkept : write = false ∨ a.report.changed = false) :
    FileEnds pipeline known write path (.ok source) ⟨path, .ok (a.report, false)⟩ none
  | written {source : String} {m : Module} {a : Applied} (hparse : Module.parse source = .ok m)
    (happly : pipeline.apply known m = some (.ok a)) (hwrite : write = true)
    (hchanged : a.report.changed = true) :
    FileEnds pipeline known write path (.ok source) ⟨path, .ok (a.report, true)⟩ (some a.module.print)

variable {pipeline : Recipe} {known : TypeIndex} {write : Bool} {read : FileReader} {path : String}

theorem loadModule_of_unreadable {cause : FileError} (h : read path = .error cause) :
    loadModule read path = .error (.file path cause) := by
  simp [loadModule, readText, h, Except.mapError, bind, Except.bind]

theorem loadModule_of_readable {source : String} (h : read path = .ok source) :
    loadModule read path = (Module.parse source).mapError (.parse path) := by
  simp [loadModule, readText, h, Except.mapError, bind, Except.bind]

theorem fileEnds_iff {result : FileResult} {text : Option String} :
    FileEnds pipeline known write path (read path) result text ↔
      applyToFile pipeline known write path (loadModule read path) = some (result, text) := by
  constructor
  · intro h
    generalize hgiven : read path = given at h
    cases h with
    | unreadable => rw [loadModule_of_unreadable hgiven]; rfl
    | malformed hparse => rw [loadModule_of_readable hgiven, hparse]; rfl
    | unresolved hparse happly =>
      rw [loadModule_of_readable hgiven, hparse]
      simp [applyToFile, Except.mapError, happly]
    | kept hparse happly hkept =>
      rw [loadModule_of_readable hgiven, hparse]
      rcases hkept with hkept | hkept <;> simp [applyToFile, Except.mapError, happly, hkept]
    | written hparse happly hwrite hchanged =>
      rw [loadModule_of_readable hgiven, hparse]
      simp [applyToFile, Except.mapError, happly, hwrite, hchanged]
  · intro h
    rcases hgiven : read path with cause | source
    · rw [loadModule_of_unreadable hgiven] at h
      cases h
      exact .unreadable
    rw [loadModule_of_readable hgiven] at h
    rcases hparse : Module.parse source with cause | m
    · rw [hparse] at h
      cases h
      exact .malformed hparse
    rw [hparse] at h
    obtain ⟨outcome, happly, h⟩ := Option.map_eq_some_iff.mp h
    rcases outcome with e | a
    · cases h
      exact .unresolved hparse happly
    · cases hwritten : write && a.report.changed with
      | false =>
        simp only [hwritten] at h
        cases h
        exact .kept hparse happly (Bool.and_eq_false_iff.mp hwritten)
      | true =>
        simp only [hwritten] at h
        cases h
        obtain ⟨hwrite, hchanged⟩ := Bool.and_eq_true_iff.mp hwritten
        exact .written hparse happly hwrite hchanged

theorem FileEnds.path_eq {given : Except FileError String} {result : FileResult} {text : Option String}
    (h : FileEnds pipeline known write path given result text) : result.path = path := by
  cases h <;> rfl

/-- A file comes to one end. -/
theorem FileEnds.unique {result result' : FileResult} {text text' : Option String}
    (h : FileEnds pipeline known write path (read path) result text)
    (h' : FileEnds pipeline known write path (read path) result' text') :
    result = result' ∧ text = text' := by
  rw [fileEnds_iff] at h h'
  simpa using h.symm.trans h'

/-- A file comes to an end unless it is parsed and its change has none. -/
theorem exists_fileEnds_iff : (∃ result text, FileEnds pipeline known write path (read path) result text) ↔
    ∀ m, loadModule read path = .ok m → (pipeline.apply known m).isSome := by
  have hsome (x : Option (FileResult × Option String)) :
      (∃ result text, x = some (result, text)) ↔ x.isSome := by
    rw [Option.isSome_iff_exists, Prod.exists]
  simp only [fileEnds_iff, hsome]
  cases loadModule read path <;> simp [applyToFile]

/-! ### The known types -/

/-- The types known for all files: the given ones and those that the files declare. -/
def knownTypes (read : FileReader) (loaded : TypeIndex) (files : List String) : TypeIndex :=
  declareAll loaded (files.map fun path => (path, loadModule read path))

theorem mem_knownTypes {loaded : TypeIndex} {files : List String} {name : String} :
    name ∈ (knownTypes read loaded files).toList ↔ name ∈ loaded.toList ∨
      ∃ path ∈ files, ∃ m, loadModule read path = .ok m ∧ ∃ d ∈ m.declaredTypes, d.qualifiedName = name := by
  induction files generalizing loaded with
  | nil => simp [knownTypes, declareAll]
  | cons path files ih =>
    have hstep : knownTypes read loaded (path :: files) =
        knownTypes read (declareAll loaded [(path, loadModule read path)]) files := rfl
    rw [hstep, ih]
    cases hload : loadModule read path with
    | error e => simp [declareAll, hload]
    | ok m =>
      have hmem : name ∈ (declareAll loaded [(path, .ok m)]).toList ↔
          (∃ d ∈ m.declaredTypes, d.qualifiedName = name) ∨ name ∈ loaded.toList := by
        simp only [declareAll, List.foldl_cons, List.foldl_nil, TypeIndex.mem_declare, List.mem_map]
      simp only [hmem, List.exists_mem_cons_iff, hload, Except.ok.injEq, exists_eq_left']
      rw [or_assoc, or_left_comm]

/-- The order of the files cannot be seen in the known types. -/
theorem knownTypes_perm {loaded : TypeIndex} {files files' : List String} (h : files.Perm files') :
    knownTypes read loaded files = knownTypes read loaded files' := by
  refine TypeIndex.eq_of_mem_iff fun name => ?_
  have hmem (files : List String) : name ∈ (knownTypes read loaded files).toList ↔ _ := mem_knownTypes
  refine (hmem files).trans (.trans ?_ (hmem files').symm)
  simp only [h.mem_iff]

/-! ### What is written -/

/-- Replace a file if there is a new text for it. -/
def FileReader.put (contents : FileReader) (path : String) : Option String → FileReader
  | none => contents
  | some text => Function.update contents path (.ok text)

/-- The files of some paths hold what their own change wrote, and all others what they held. -/
def FileReader.UpdatedAt (pipeline : Recipe) (known : TypeIndex) (write : Bool) (read : FileReader)
    (done : String → Prop) (contents : FileReader) : Prop :=
  ∀ path,
    (∀ result text, done path → FileEnds pipeline known write path (read path) result (some text) →
      contents path = .ok text) ∧
    ((∀ result text, done path → ¬ FileEnds pipeline known write path (read path) result (some text)) →
      contents path = read path)

namespace FileReader.UpdatedAt

variable {done : String → Prop} {contents contents' : FileReader}

theorem unique (h : UpdatedAt pipeline known write read done contents)
    (h' : UpdatedAt pipeline known write read done contents') : contents = contents' := by
  funext path
  by_cases hwritten : ∃ result text, done path ∧
      FileEnds pipeline known write path (read path) result (some text)
  · obtain ⟨result, text, hdone, hends⟩ := hwritten
    rw [(h path).1 result text hdone hends, (h' path).1 result text hdone hends]
  · have hkept : ∀ result text, done path →
        ¬ FileEnds pipeline known write path (read path) result (some text) :=
      fun result text hdone hends => hwritten ⟨result, text, hdone, hends⟩
    rw [(h path).2 hkept, (h' path).2 hkept]

/-- Each file is as it was, or holds what its own change wrote. -/
theorem eq_or_written (h : UpdatedAt pipeline known write read done contents) (path : String) :
    contents path = read path ∨ done path ∧ ∃ result text,
      FileEnds pipeline known write path (read path) result (some text) ∧ contents path = .ok text := by
  by_cases hwritten : ∃ result text, done path ∧
      FileEnds pipeline known write path (read path) result (some text)
  · obtain ⟨result, text, hdone, hends⟩ := hwritten
    exact .inr ⟨hdone, result, text, hends, (h path).1 result text hdone hends⟩
  · exact .inl ((h path).2 fun result text hdone hends => hwritten ⟨result, text, hdone, hends⟩)

theorem none (h : ∀ path, ¬ done path) : UpdatedAt pipeline known write read done read :=
  fun path => ⟨fun _ _ hdone => absurd hdone (h path), fun _ => rfl⟩

/-- One more file is done. A path that was done before holds the same text again. -/
theorem put {text : Option String} {result : FileResult}
    (h : UpdatedAt pipeline known write read done contents)
    (hends : FileEnds pipeline known write path (read path) result text) :
    UpdatedAt pipeline known write read (fun p => done p ∨ p = path) (contents.put path text) := by
  intro p
  by_cases hp : p = path
  · subst hp
    refine ⟨fun result' text' _ hends' => ?_, fun hkept => ?_⟩
    · obtain ⟨_, rfl⟩ := hends.unique hends'
      exact Function.update_self ..
    · cases text with
      | none => exact (h p).2 fun result' text' hdone => hkept result' text' (.inl hdone)
      | some text => exact absurd hends (hkept result text (.inr rfl))
  · have hsame : contents.put path text p = contents p := by
      cases text with
      | none => rfl
      | some text => exact Function.update_of_ne hp ..
    simpa only [hsame, hp, or_false] using h p

theorem congr {done' : String → Prop} (h : UpdatedAt pipeline known write read done contents)
    (hdone : ∀ path, done path ↔ done' path) : UpdatedAt pipeline known write read done' contents :=
  funext (fun path => propext (hdone path)) ▸ h

end FileReader.UpdatedAt

/-! ### Tasks and their steps -/

/-- How far the task of a file has got. -/
inductive FileTask where
  | unread
  | parsed (outcome : Except CommandError Module)
  /-- The change is worked out, and there may be a text to write back. -/
  | decided (result : FileResult) (text : Option String)
  | finished (result : FileResult)

/-- How many moves a task has before it. -/
def FileTask.left : FileTask → Nat
  | .unread => 3
  | .parsed _ => 2
  | .decided _ _ => 1
  | .finished _ => 0

/-- All tasks at one moment: what the files hold, the known types once all files are parsed, and how far
each task has got, in the order in which the files were given. -/
structure Batch where
  contents : FileReader
  known : Option TypeIndex
  tasks : List (String × FileTask)

namespace Batch

/-- No task has done anything yet. -/
def start (read : FileReader) (files : List String) : Batch :=
  ⟨read, none, files.map fun path => (path, .unread)⟩

/-- One move. While the known types are not there only reading is possible, and they are there when no file
is unread any more. -/
inductive Step (pipeline : Recipe) (loaded : TypeIndex) (write : Bool) : Batch → Batch → Prop
  | parse {contents : FileReader} {path : String} (front back : List (String × FileTask)) :
    Step pipeline loaded write ⟨contents, none, front ++ (path, .unread) :: back⟩
      ⟨contents, none, front ++ (path, .parsed (loadModule contents path)) :: back⟩
  | declare {contents : FileReader} (parsed : List (String × Except CommandError Module)) :
    Step pipeline loaded write ⟨contents, none, parsed.map fun p => (p.1, .parsed p.2)⟩
      ⟨contents, some (declareAll loaded parsed), parsed.map fun p => (p.1, .parsed p.2)⟩
  | decide {contents : FileReader} {known : TypeIndex} {path : String}
    {outcome : Except CommandError Module} {result : FileResult} {text : Option String}
    (front back : List (String × FileTask))
    (h : applyToFile pipeline known write path outcome = some (result, text)) :
    Step pipeline loaded write ⟨contents, some known, front ++ (path, .parsed outcome) :: back⟩
      ⟨contents, some known, front ++ (path, .decided result text) :: back⟩
  | finish {contents : FileReader} {known : TypeIndex} {path : String} {result : FileResult}
    {text : Option String} (front back : List (String × FileTask)) :
    Step pipeline loaded write ⟨contents, some known, front ++ (path, .decided result text) :: back⟩
      ⟨contents.put path text, some known, front ++ (path, .finished result) :: back⟩

/-- Any number of moves, in any order that the steps allow. -/
abbrev Run (pipeline : Recipe) (loaded : TypeIndex) (write : Bool) : Batch → Batch → Prop :=
  Relation.ReflTransGen (Step pipeline loaded write)

/-! ### What a task can hold -/

variable {loaded : TypeIndex} {files : List String} {b b' : Batch}

/-- What a task holds once the types are known comes from the file as it was at the start. -/
def Agrees (pipeline : Recipe) (known : TypeIndex) (write : Bool) (read : FileReader)
    (path : String) : FileTask → Prop
  | .unread => False
  | .parsed outcome => outcome = loadModule read path
  | .decided result text => FileEnds pipeline known write path (read path) result text
  | .finished result => ∃ text, FileEnds pipeline known write path (read path) result text

/-- The task of the file is finished. -/
def Done (tasks : List (String × FileTask)) (path : String) : Prop :=
  ∃ result, (path, FileTask.finished result) ∈ tasks

/-- A batch that a run can lead to. -/
inductive Sound (pipeline : Recipe) (loaded : TypeIndex) (write : Bool) (read : FileReader)
    (files : List String) : Batch → Prop
  | reading {tasks : List (String × FileTask)} (paths : tasks.map (·.1) = files)
    (agrees : ∀ t ∈ tasks, t.2 = .unread ∨ t.2 = .parsed (loadModule read t.1)) :
    Sound pipeline loaded write read files ⟨read, none, tasks⟩
  | changing {contents : FileReader} {tasks : List (String × FileTask)} (paths : tasks.map (·.1) = files)
    (agrees : ∀ t ∈ tasks, Agrees pipeline (knownTypes read loaded files) write read t.1 t.2)
    (updated : read.UpdatedAt pipeline (knownTypes read loaded files) write (Done tasks) contents) :
    Sound pipeline loaded write read files ⟨contents, some (knownTypes read loaded files), tasks⟩

theorem sound_start : Sound pipeline loaded write read files (start read files) := by
  refine .reading (by simp [Function.comp_def]) fun t ht => ?_
  obtain ⟨path, _, rfl⟩ := List.mem_map.mp ht
  exact .inl rfl

theorem forall_mem_middle {α : Type} {P : α → Prop} {front back : List α} {x y : α}
    (h : ∀ z ∈ front ++ x :: back, P z) (hy : P y) : ∀ z ∈ front ++ y :: back, P z := by
  intro z hz
  rcases List.mem_append.mp hz with hz | hz
  · exact h z (List.mem_append_left _ hz)
  · rcases List.mem_cons.mp hz with rfl | hz
    · exact hy
    · exact h z (List.mem_append_right _ (List.mem_cons_of_mem _ hz))

theorem done_middle_iff {front back : List (String × FileTask)} {path p : String} {t : FileTask}
    (ht : ∀ result, t ≠ .finished result) : Done (front ++ (path, t) :: back) p ↔ Done (front ++ back) p := by
  have hne (result : FileResult) : (p, FileTask.finished result) ≠ (path, t) :=
    fun heq => ht result (Prod.ext_iff.mp heq).2.symm
  simp [Done, hne]

theorem done_finished_iff {front back : List (String × FileTask)} {path p : String} {result : FileResult} :
    Done (front ++ (path, .finished result) :: back) p ↔ Done (front ++ back) p ∨ p = path := by
  simp only [Done, List.mem_append, List.mem_cons, Prod.mk.injEq, FileTask.finished.injEq]
  grind

/-- **Every move keeps the batch sound.** -/
theorem Sound.step (hb : Sound pipeline loaded write read files b) (h : Step pipeline loaded write b b') :
    Sound pipeline loaded write read files b' := by
  cases h with
  | parse front back =>
    obtain ⟨paths, agrees⟩ | _ := hb
    exact .reading (by simpa using paths) (forall_mem_middle agrees (.inr rfl))
  | declare parsed =>
    obtain ⟨paths, agrees⟩ | _ := hb
    have hparsed : parsed = files.map fun path => (path, loadModule read path) := by
      rw [← paths, List.map_map, List.map_map]
      refine (List.map_id parsed).symm.trans (List.map_congr_left fun p hp => ?_)
      rcases agrees _ (List.mem_map_of_mem hp) with heq | heq
      · cases heq
      · exact Prod.ext rfl (FileTask.parsed.inj heq)
    have hknown : declareAll loaded parsed = knownTypes read loaded files := by rw [hparsed]; rfl
    rw [hknown]
    refine .changing paths (fun t ht => ?_) (.none fun path hdone => ?_)
    · rcases agrees t ht with heq | heq
      · obtain ⟨p, _, rfl⟩ := List.mem_map.mp ht
        cases heq
      · rw [heq]
        rfl
    · obtain ⟨result, hmem⟩ := hdone
      obtain ⟨p, _, heq⟩ := List.mem_map.mp hmem
      cases heq
  | decide front back happly =>
    obtain _ | ⟨paths, agrees, updated⟩ := hb
    have houtcome := agrees _ (List.mem_append_right _ List.mem_cons_self)
    refine .changing (by simpa using paths) (forall_mem_middle agrees ?_) (updated.congr fun p => ?_)
    · exact fileEnds_iff.mpr (houtcome ▸ happly)
    · rw [done_middle_iff (by simp), done_middle_iff (by simp)]
  | finish front back =>
    obtain _ | ⟨paths, agrees, updated⟩ := hb
    have hends := agrees _ (List.mem_append_right _ List.mem_cons_self)
    refine .changing (by simpa using paths) (forall_mem_middle agrees ⟨_, hends⟩)
      ((updated.put hends).congr fun p => ?_)
    rw [done_finished_iff, done_middle_iff (by simp)]

theorem Sound.run (hb : Sound pipeline loaded write read files b) (h : Run pipeline loaded write b b') :
    Sound pipeline loaded write read files b' := by
  induction h with
  | refl => exact hb
  | tail _ hstep ih => exact ih.step hstep

/-! ### Runs end -/

/-- How many moves a batch has before it. -/
def left (b : Batch) : Nat := (b.tasks.map fun t => FileTask.left t.2).sum + if b.known.isSome then 0 else 1

theorem left_step (h : Step pipeline loaded write b b') : b'.left + 1 = b.left := by
  cases h <;> simp [left, FileTask.left] <;> omega

/-- The tasks are all finished, with these results. -/
def Finished (b : Batch) (results : List FileResult) : Prop :=
  List.Forall₂ (fun t result => t.2 = .finished result) b.tasks results

/-- A batch that is not finished can go on, unless it waits for a change that has no end. -/
theorem Sound.finished_or_step (hb : Sound pipeline loaded write read files b)
    (hends : ∀ path ∈ files, ∃ result text,
      FileEnds pipeline (knownTypes read loaded files) write path (read path) result text) :
    (∃ results, b.Finished results) ∨ ∃ b', Step pipeline loaded write b b' := by
  cases hb with
  | @reading tasks paths agrees =>
    right
    by_cases hunread : ∃ t ∈ tasks, t.2 = .unread
    · obtain ⟨⟨path, _⟩, ht, rfl⟩ := hunread
      obtain ⟨front, back, rfl⟩ := List.append_of_mem ht
      exact ⟨_, .parse front back⟩
    · have hparsed : tasks = (tasks.map fun t => (t.1, loadModule read t.1)).map
          fun p => (p.1, .parsed p.2) := by
        rw [List.map_map]
        refine (List.map_id tasks).symm.trans (List.map_congr_left fun t ht => ?_)
        exact Prod.ext rfl ((agrees t ht).resolve_left fun heq => hunread ⟨t, ht, heq⟩)
      rw [hparsed]
      exact ⟨_, .declare _⟩
  | @changing contents tasks paths agrees updated =>
    by_cases hdone : ∀ t ∈ tasks, ∃ result, t.2 = .finished result
    · exact .inl (exists_forall₂_iff.mpr hdone)
    right
    push Not at hdone
    obtain ⟨⟨path, t⟩, ht, hnot⟩ := hdone
    obtain ⟨front, back, rfl⟩ := List.append_of_mem ht
    have hagrees := agrees _ ht
    cases t with
    | unread => exact hagrees.elim
    | parsed outcome =>
      have hpath : path ∈ files := paths ▸ List.mem_map_of_mem (f := (·.1)) ht
      obtain ⟨result, text, hends⟩ := hends path hpath
      rw [fileEnds_iff, ← (hagrees : outcome = loadModule read path)] at hends
      exact ⟨_, .decide front back hends⟩
    | decided result text => exact ⟨_, .finish front back⟩
    | finished result => exact absurd rfl (hnot result)

/-- **From every moment on the tasks can be brought to their end** if every file comes to one. -/
theorem Sound.exists_run (hb : Sound pipeline loaded write read files b)
    (hends : ∀ path ∈ files, ∃ result text,
      FileEnds pipeline (knownTypes read loaded files) write path (read path) result text) :
    ∃ b' results, Run pipeline loaded write b b' ∧ b'.Finished results := by
  induction hn : b.left using Nat.strongRecOn generalizing b with
  | ind n ih =>
    rcases hb.finished_or_step hends with ⟨results, hresults⟩ | ⟨next, hstep⟩
    · exact ⟨b, results, .refl, hresults⟩
    · have hless : next.left < n := by
        have := left_step hstep
        omega
      obtain ⟨b', results, hrun, hresults⟩ := ih next.left hless (hb.step hstep) rfl
      exact ⟨b', results, .head hstep hrun, hresults⟩

/-- No run goes on for ever. -/
theorem wellFounded_step : WellFounded fun b' b => Step pipeline loaded write b b' :=
  Subrelation.wf (fun hstep => Nat.lt_of_succ_le (Nat.le_of_eq (left_step hstep))) (measure left).wf

end Batch

end Migration
