import Mathlib.Algebra.Ring.Nat
import Migration.Grammar.Declarations
import Migration.Proofs.Rule.Notes
import Migration.Proofs.Token.Scanning
import Migration.Tree.Printer

/-!
# Recipes in order

However pipelines are nested, what they do is done by their leaves, from left to right. `runInOrder`
applies recipes one after the other and keeps what each of them gave, until one fails or has no end.
`apply_summarizes` says that applying a recipe comes to the run of its leaves: the same module and the
same counts where all of them succeed, and otherwise the failure of the first leaf that fails, with
the module and the counts of those before it.

A property of modules that every leaf keeps is therefore kept by the whole recipe
(`apply_invariant`).
-/

namespace Migration

namespace Recipe

mutual

/-- The recipes inside that are no pipelines, from left to right. -/
def leaves : Recipe → List Recipe
  | .changeSupertype c => [.changeSupertype c]
  | .changeConstant t => [.changeConstant t]
  | .changeConstants t => [.changeConstants t]
  | .pipeline _ recipes => leavesAll recipes
termination_by structural r => r

/-- The leaves of several recipes. -/
def leavesAll : List Recipe → List Recipe
  | [] => []
  | r :: rs => leaves r ++ leavesAll rs
termination_by structural rs => rs

end

end Recipe

/-! ### Runs -/

/-- What applying recipes one after the other comes to. -/
inductive Run where
  /-- All succeed. -/
  | finished (steps : List Applied) (out : Module)
  /-- One fails on `last`, after the given steps. -/
  | failed (steps : List Applied) (last : Module) (failure : ApplyError)
  /-- One has no end. -/
  | endless

namespace Run

/-- The run with more steps in front. -/
def after (before : List Applied) : Run → Run
  | finished steps out => finished (before ++ steps) out
  | failed steps last failure => failed (before ++ steps) last failure
  | endless => endless

theorem after_nil (run : Run) : run.after [] = run := by
  cases run <;> rfl

theorem after_after (as bs : List Applied) (run : Run) :
    (run.after bs).after as = run.after (as ++ bs) := by
  cases run <;> simp [after]

/-- The run followed by another one, which starts from the module that the first gives. -/
def andThen (run : Run) (next : Module → Run) : Run :=
  match run with
  | finished steps out => (next out).after steps
  | failed steps last failure => failed steps last failure
  | endless => endless

theorem andThen_after (before : List Applied) (run : Run) (next : Module → Run) :
    (run.after before).andThen next = (run.andThen next).after before := by
  cases run with
  | finished steps out => exact (after_after before steps (next out)).symm
  | failed steps last failure => rfl
  | endless => rfl

/-- The module that a run gives, or its failure. -/
def gist : Run → Option (Except (String × ResolutionError × Module) Module)
  | finished _ out => some (.ok out)
  | failed _ last failure => some (.error (failure.recipe, failure.cause, last))
  | endless => none

/-- The module that a run gives, or at which it fails, is one of `P`. -/
def Ends (P : Module → Prop) : Run → Prop
  | finished _ out => P out
  | failed _ last _ => P last
  | endless => True

theorem Ends.mono {P Q : Module → Prop} {run : Run} (h : run.Ends P) (hQ : ∀ m, P m → Q m) :
    run.Ends Q := by
  cases run with
  | finished steps out => exact hQ out h
  | failed steps last failure => exact hQ last h
  | endless => trivial

theorem Ends.after {P : Module → Prop} {run : Run} (h : run.Ends P) (before : List Applied) :
    (run.after before).Ends P := by
  cases run <;> exact h

end Run

/-- How many nodes were replaced in several steps. -/
def totalEdits (steps : List Applied) : Nat := (steps.map (·.report.edits)).sum

/-- Something changed in one of several steps. -/
def anyChanged (steps : List Applied) : Bool := steps.any (·.report.changed)

namespace Recipe

/-- Apply recipes one after the other, as long as they succeed. -/
def runInOrder (index : TypeIndex) : List Recipe → Module → Run
  | [], m => .finished [] m
  | u :: us, m =>
    match u.apply index m with
    | none => .endless
    | some (.error e) => .failed [] m e
    | some (.ok a) => (runInOrder index us a.module).after [a]

theorem runInOrder_append (index : TypeIndex) (us vs : List Recipe) (m : Module) :
    runInOrder index (us ++ vs) m = (runInOrder index us m).andThen (runInOrder index vs) := by
  induction us generalizing m with
  | nil => exact (Run.after_nil _).symm
  | cons u us ih =>
    rw [List.cons_append, runInOrder, runInOrder]
    split
    · rfl
    · rfl
    · rw [ih, Run.andThen_after]

/-! ### Nested pipelines -/

/-- The outcome tells of the run what a recipe reports. -/
def Summarizes (outcome : Outcome Applied) : Run → Prop
  | .finished steps out => ∃ a, outcome = some (.ok a) ∧ a.module = out
      ∧ a.report.edits = totalEdits steps ∧ a.report.changed = anyChanged steps
  | .failed steps last failure => ∃ e, outcome = some (.error e) ∧ e.recipe = failure.recipe
      ∧ e.cause = failure.cause ∧ e.committed = last
      ∧ (e.completed.map (·.edits)).sum = totalEdits steps
  | .endless => outcome = none

/-- The outcome of several recipes tells of the run what they report. -/
def SummarizesAll (outcome : Outcome (Module × List Report)) : Run → Prop
  | .finished steps out => ∃ reports, outcome = some (.ok (out, reports))
      ∧ (reports.map (·.edits)).sum = totalEdits steps
      ∧ reports.any (·.changed) = anyChanged steps
  | .failed steps last failure => ∃ e, outcome = some (.error e) ∧ e.recipe = failure.recipe
      ∧ e.cause = failure.cause ∧ e.committed = last
      ∧ (e.completed.map (·.edits)).sum = totalEdits steps
  | .endless => outcome = none

/-- A pass that fails gives back its module and no reports. -/
theorem applyPass_error {recipe : String} {m : Module} {index : TypeIndex}
    {pass : SymbolTable → Module → Pass PassState (Option Module)} {e : ApplyError}
    (h : applyPass recipe m index pass = some (.error e)) : e.committed = m ∧ e.completed = [] := by
  obtain ⟨⟨changed, s⟩, _, h⟩ := Option.map_eq_some_iff.mp h
  dsimp only at h
  split at h
  · cases h
  · split at h
    · cases h
      exact ⟨rfl, rfl⟩
    · cases h

/-- A recipe without others inside is its own run. -/
theorem summarizes_leaf {index : TypeIndex} {u : Recipe} {m : Module}
    {pass : SymbolTable → Module → Pass PassState (Option Module)} (hu : u.pass? = some pass) :
    Summarizes (u.apply index m) (runInOrder index [u] m) := by
  have happly := apply_of_pass? hu index m
  rw [runInOrder]
  split
  case h_1 hnone => exact hnone
  case h_2 e herror =>
    obtain ⟨hcommitted, hcompleted⟩ := applyPass_error (happly.symm.trans herror)
    refine ⟨e, herror, rfl, rfl, hcommitted, ?_⟩
    rw [hcompleted]
    rfl
  case h_3 a hok => exact ⟨a, hok, rfl, (Nat.add_zero _).symm, (Bool.or_false _).symm⟩

theorem summarizes_pipeline {index : TypeIndex} {name : String} {recipes : List Recipe} {m : Module}
    {run : Run} (h : SummarizesAll (applyAll index recipes m) run) :
    Summarizes ((pipeline name recipes).apply index m) run := by
  have hsum (reports : List Report) :
      reports.foldr (·.edits + ·) 0 = (reports.map (·.edits)).sum := by
    rw [List.sum, List.foldr_map]
  rw [apply]
  cases run with
  | finished steps out =>
    obtain ⟨reports, hall, hedits, hchanged⟩ := h
    rw [hall]
    refine ⟨_, rfl, rfl, ?_, hchanged⟩
    rw [← hedits, ← hsum]
    rfl
  | failed steps last failure =>
    obtain ⟨e, hall, hfields⟩ := h
    rw [hall]
    exact ⟨e, rfl, hfields⟩
  | endless =>
    rw [SummarizesAll] at h
    rw [h]
    rfl

theorem summarizesAll_cons {index : TypeIndex} {r : Recipe} {rs : List Recipe} {m : Module}
    {run : Run} {next : Module → Run} (hr : Summarizes (r.apply index m) run)
    (hrs : ∀ m, SummarizesAll (applyAll index rs m) (next m)) :
    SummarizesAll (applyAll index (r :: rs) m) (run.andThen next) := by
  rw [applyAll]
  cases run with
  | endless =>
    rw [Summarizes] at hr
    rw [hr]
    rfl
  | failed steps last failure =>
    obtain ⟨e, hone, hfields⟩ := hr
    rw [hone]
    exact ⟨e, rfl, hfields⟩
  | finished steps out =>
    obtain ⟨a, hone, rfl, hedits, hchanged⟩ := hr
    have hmore := hrs a.module
    rw [hone, Run.andThen]
    dsimp only
    cases hnext : next a.module with
    | endless =>
      rw [hnext, SummarizesAll] at hmore
      rw [hmore]
      rfl
    | failed more last failure =>
      rw [hnext] at hmore
      obtain ⟨e, hall, hname, hcause, hlast, hcompleted⟩ := hmore
      rw [hall]
      refine ⟨_, rfl, hname, hcause, hlast, ?_⟩
      simp [totalEdits] at hcompleted hedits ⊢
      rw [hedits, hcompleted]
    | finished more out =>
      rw [hnext] at hmore
      obtain ⟨reports, hall, htotal, hany⟩ := hmore
      rw [hall]
      refine ⟨_, rfl, ?_, ?_⟩
      · simp [totalEdits] at htotal hedits ⊢
        rw [hedits, htotal]
      · simp [anyChanged] at hany hchanged ⊢
        rw [hchanged, hany]

mutual

/-- Applying a recipe comes to the run of its leaves. -/
theorem apply_summarizes {index : TypeIndex} :
    (r : Recipe) → (m : Module) → Summarizes (r.apply index m) (runInOrder index r.leaves m)
  | .changeSupertype _, _ => summarizes_leaf rfl
  | .changeConstant _, _ => summarizes_leaf rfl
  | .changeConstants _, _ => summarizes_leaf rfl
  | .pipeline _ recipes, m => summarizes_pipeline (applyAll_summarizes recipes m)

theorem applyAll_summarizes {index : TypeIndex} :
    (rs : List Recipe) → (m : Module) →
      SummarizesAll (applyAll index rs m) (runInOrder index (leavesAll rs) m)
  | [], _ => ⟨[], rfl, rfl, rfl⟩
  | r :: rs, m => by
    rw [leavesAll, runInOrder_append]
    exact summarizesAll_cons (apply_summarizes r m) (applyAll_summarizes rs)

end

/-- The module that a recipe gives, or its failure. -/
def gist (outcome : Outcome Applied) :
    Option (Except (String × ResolutionError × Module) Module) :=
  outcome.map fun
    | .ok a => .ok a.module
    | .error e => .error (e.recipe, e.cause, e.committed)

theorem Summarizes.gist_eq {outcome : Outcome Applied} {run : Run} (h : Summarizes outcome run) :
    gist outcome = run.gist := by
  cases run with
  | finished steps out =>
    obtain ⟨a, rfl, rfl, _⟩ := h
    rfl
  | failed steps last failure =>
    obtain ⟨e, rfl, hname, hcause, hlast, _⟩ := h
    rw [Run.gist, ← hname, ← hcause, ← hlast]
    rfl
  | endless =>
    rw [Summarizes] at h
    rw [h]
    rfl

/-- A run that fails does so at one of its recipes, after those before it have succeeded. -/
theorem exists_of_runInOrder_failed {index : TypeIndex} {us : List Recipe} {m last : Module}
    {steps : List Applied} {failure : ApplyError}
    (h : runInOrder index us m = .failed steps last failure) :
    ∃ before u after, us = before ++ u :: after
      ∧ runInOrder index before m = .finished steps last
      ∧ u.apply index last = some (.error failure) := by
  induction us generalizing m steps with
  | nil => cases h
  | cons u us ih =>
    rw [runInOrder] at h
    split at h
    case h_1 => cases h
    case h_2 e herror =>
      cases h
      exact ⟨[], u, us, rfl, rfl, herror⟩
    case h_3 a hok =>
      cases hrest : runInOrder index us a.module with
      | finished more out =>
        rw [hrest] at h
        cases h
      | endless =>
        rw [hrest] at h
        cases h
      | failed more last' failure' =>
        rw [hrest] at h
        cases h
        obtain ⟨before, v, after, rfl, hbefore, hv⟩ := ih hrest
        refine ⟨u :: before, v, after, rfl, ?_, hv⟩
        rw [runInOrder, hok]
        dsimp only
        rw [hbefore]
        rfl

/-- **Pipelines compose in order.** Applying a recipe comes to applying its leaves one after the
other: it succeeds exactly when all of them do, and then it gives their module and their counts;
otherwise it fails like the first leaf that fails, with the module and the counts of those before it.
So recipes with the same leaves do the same to every module. -/
theorem apply_leaves_in_order (index : TypeIndex) (r : Recipe) (m : Module) :
    Summarizes (r.apply index m) (runInOrder index r.leaves m) ∧
    (∀ steps last failure, runInOrder index r.leaves m = .failed steps last failure →
      ∃ before u after, r.leaves = before ++ u :: after
        ∧ runInOrder index before m = .finished steps last
        ∧ u.apply index last = some (.error failure)) ∧
    ∀ r' : Recipe, r'.leaves = r.leaves → gist (r'.apply index m) = gist (r.apply index m) := by
  refine ⟨apply_summarizes r m, fun _ _ _ => exists_of_runInOrder_failed, fun r' hleaves => ?_⟩
  rw [(apply_summarizes r' m).gist_eq, (apply_summarizes r m).gist_eq, hleaves]

/-- A pipeline whose second leaf fails, with an empty pipeline in front of that leaf and without:
either way the failure of the leaf comes out, with the module that the first leaf gave. -/
theorem apply_leaves_in_order_regrouped : ∃ c d m e,
    SupertypeChange.ofNames "A" "q.B" = .ok c ∧
    SupertypeChange.ofNames "V" "W" = .ok d ∧
    Module.parse "class X extends A {} class Y extends V {}" = .ok m ∧
    (pipeline "flat" [changeSupertype c, changeSupertype d]).apply (.ofList []) m
      = some (.error e) ∧
    e.cause = .unknown "W" ∧
    e.committed.print = "import q.B;\n\nclass X extends B {} class Y extends V {}" ∧
    gist ((pipeline "outer" [pipeline "inner" [changeSupertype c, pipeline "" []],
      changeSupertype d]).apply (.ofList []) m) = some (.error (e.recipe, e.cause, e.committed)) := by
  have hcheck : (do
      let c ← (SupertypeChange.ofNames "A" "q.B").toOption
      let d ← (SupertypeChange.ofNames "V" "W").toOption
      let m ← (Module.parse "class X extends A {} class Y extends V {}").toOption
      match runInOrder (.ofList []) [changeSupertype c, changeSupertype d] m with
      | .failed _ last failure => return decide (failure.cause = .unknown "W")
          && last.print == "import q.B;\n\nclass X extends B {} class Y extends V {}"
      | _ => none : Option Bool) = some true := by
    decide +kernel
  obtain ⟨c, hc, hcheck⟩ := Option.bind_eq_some_iff.mp hcheck
  obtain ⟨d, hd, hcheck⟩ := Option.bind_eq_some_iff.mp hcheck
  obtain ⟨m, hm, hcheck⟩ := Option.bind_eq_some_iff.mp hcheck
  split at hcheck
  case h_2 => cases hcheck
  case h_1 steps last failure hrun =>
    simp only [pure, Option.some.injEq, Bool.and_eq_true, decide_eq_true_eq, beq_iff_eq] at hcheck
    obtain ⟨hsum, _, hregroup⟩ := apply_leaves_in_order (.ofList [])
      (pipeline "flat" [changeSupertype c, changeSupertype d]) m
    rw [show leaves (pipeline "flat" [changeSupertype c, changeSupertype d])
      = [changeSupertype c, changeSupertype d] from rfl, hrun] at hsum
    obtain ⟨e, hflat, hname, hcause, rfl, _⟩ := hsum
    refine ⟨c, d, m, e, eq_ok_of_toOption hc, eq_ok_of_toOption hd, eq_ok_of_toOption hm, hflat,
      hcause.trans hcheck.1, hcheck.2, ?_⟩
    have hnested := hregroup (pipeline "outer" [pipeline "inner" [changeSupertype c,
      pipeline "" []], changeSupertype d]) rfl
    rw [hflat] at hnested
    exact hnested

/-! ### Invariants -/

mutual

theorem exists_pass_of_mem_leaves {u : Recipe} :
    (r : Recipe) → u ∈ r.leaves → ∃ pass, u.pass? = some pass
  | .changeSupertype c, h => ⟨c.pass, by rw [List.mem_singleton.mp h]; rfl⟩
  | .changeConstant t, h => ⟨t.pass, by rw [List.mem_singleton.mp h]; rfl⟩
  | .changeConstants t, h => ⟨t.pass, by rw [List.mem_singleton.mp h]; rfl⟩
  | .pipeline _ recipes, h => exists_pass_of_mem_leavesAll recipes h

theorem exists_pass_of_mem_leavesAll {u : Recipe} :
    (rs : List Recipe) → u ∈ leavesAll rs → ∃ pass, u.pass? = some pass
  | [], h => nomatch h
  | r :: rs, h => by
    rcases List.mem_append.mp h with h | h
    · exact exists_pass_of_mem_leaves r h
    · exact exists_pass_of_mem_leavesAll rs h

end

/-- The module after a recipe, whether it succeeded or failed. -/
def lastModule : Except ApplyError Applied → Module
  | .ok a => a.module
  | .error e => e.committed

theorem runInOrder_invariant {index : TypeIndex} {I : Module → Prop} {us : List Recipe}
    (hleaf : ∀ u ∈ us, ∀ m a, I m → u.apply index m = some (.ok a) → I a.module)
    {m : Module} (hm : I m) : (runInOrder index us m).Ends I := by
  induction us generalizing m with
  | nil => exact hm
  | cons u us ih =>
    rw [runInOrder]
    cases hone : u.apply index m with
    | none => trivial
    | some outcome =>
      cases outcome with
      | error e => exact hm
      | ok a =>
        exact (ih (fun v hv => hleaf v (List.mem_cons_of_mem u hv))
          (hleaf u List.mem_cons_self m a hm hone)).after [a]

/-- What holds at the end of the run of its leaves holds of the module after a recipe. -/
theorem holds_lastModule {index : TypeIndex} {P : Module → Prop} {r : Recipe} {m : Module}
    (hrun : (runInOrder index r.leaves m).Ends P) {outcome : Except ApplyError Applied}
    (h : r.apply index m = some outcome) : P (lastModule outcome) := by
  have hsum : Summarizes (r.apply index m) (runInOrder index r.leaves m) := apply_summarizes r m
  rw [h] at hsum
  generalize runInOrder index r.leaves m = run at hsum hrun
  cases run with
  | finished steps out =>
    obtain ⟨a, heq, rfl, _⟩ := hsum
    cases heq
    exact hrun
  | failed steps last failure =>
    obtain ⟨e, heq, _, _, rfl, _⟩ := hsum
    cases heq
    exact hrun
  | endless => cases hsum

/-- **What every leaf keeps, a recipe keeps**, also where it fails. -/
theorem apply_invariant {index : TypeIndex} {I : Module → Prop} {r : Recipe}
    (hleaf : ∀ u ∈ r.leaves, ∀ m a, I m → u.apply index m = some (.ok a) → I a.module)
    {m : Module} (hm : I m) {outcome : Except ApplyError Applied}
    (h : r.apply index m = some outcome) : I (lastModule outcome) :=
  holds_lastModule (runInOrder_invariant hleaf hm) h

end Recipe

end Migration
