import Migration.Proofs.Grammar.RoundTrip
import Migration.Proofs.Recipe.Sequence
import Migration.Proofs.Traversal.Counting

/-!
# Recipes that change nothing

The hooks of both rules count exactly what they replace (`SupertypeChange.counting`,
`ConstantTable.counting`), so the report of a recipe says that it changed something exactly when it
counts a replaced node, and a recipe that changed nothing gives its module back as it was
(`Recipe.apply_unchanged`).
-/

namespace Migration

/-! ### Counting replaced nodes -/

theorem tells_ask {α : Type} {hook : PassState → Option α × PassState}
    (h : ∀ s r s', hook s = (r, s') → s'.edits = s.edits + if r.isSome then 1 else 0) :
    Pass.Tells PassState.edits false (Pass.ask hook) := by
  intro s r s' hrun
  have hedits := h s r s' (Option.some.inj hrun)
  cases r with
  | none =>
    rw [hedits]
    exact ⟨Nat.le_refl _, by simp⟩
  | some x =>
    rw [hedits]
    exact ⟨Nat.le_succ _, by simp⟩

theorem SupertypeChange.edits_respell (c : SupertypeChange) (symbols : SymbolTable) (t : TypeName)
    (s : PassState) : (c.respell symbols t s).2.edits = s.edits := by
  rw [respell]
  split
  · split <;> rfl
  · rfl

theorem SupertypeChange.edits_replace {c : SupertypeChange} {symbols : SymbolTable} {d : TypeDecl}
    {s s' : PassState} {r : Option TypeDecl} (h : c.replace symbols d s = (r, s')) :
    s'.edits = s.edits + if r.isSome then 1 else 0 := by
  rw [replace] at h
  split at h
  case isFalse =>
    cases h
    rfl
  case isTrue =>
    split at h
    case h_1 =>
      cases h
      rfl
    case h_2 t ht =>
      have hedits := c.edits_respell symbols t s
      split at h
      case h_1 s₁ hnone =>
        cases h
        rw [hnone] at hedits
        exact hedits
      case h_2 name s₁ hname =>
        rw [hname] at hedits
        split at h
        case h_1 =>
          cases h
          exact hedits
        case h_2 =>
          cases h
          exact congrArg (· + 1) hedits

/-- A change of superclasses counts the declarations that it replaces. -/
theorem SupertypeChange.counting (c : SupertypeChange) (symbols : SymbolTable) :
    Pass.Counting PassState.edits (c.hooks symbols) where
  typeDecl _ := tells_ask fun _ _ _ => edits_replace
  typeName _ := tells_ask fun _ _ _ h => by cases h; rfl
  expr e := by
    cases e with
    | name i => exact tells_ask fun _ _ _ h => by cases h; rfl
    | access a => exact tells_ask fun _ _ _ h => by cases h; rfl
    | call c => exact tells_ask fun _ _ _ h => by cases h; rfl
    | _ => exact .pure rfl

theorem ConstantChange.edits_retarget (c : ConstantChange) (symbols : SymbolTable) (a : FieldAccess)
    (s : PassState) : (c.retarget symbols a s).2.edits = s.edits := by
  rw [retarget]
  split
  · rfl
  · split
    · rfl
    · split <;> rfl

theorem ConstantTable.edits_replace {t : ConstantTable} {symbols : SymbolTable} {a : FieldAccess}
    {s s' : PassState} {r : Option Expr} (h : t.replace symbols a s = (r, s')) :
    s'.edits = s.edits + if r.isSome then 1 else 0 := by
  rw [replace] at h
  split at h
  case h_1 =>
    cases h
    rfl
  case h_2 c hc =>
    rw [ConstantChange.replace] at h
    split at h
    case isFalse =>
      cases h
      rfl
    case isTrue =>
      have hedits := c.edits_retarget symbols a s
      split at h
      case h_1 s₁ hnone =>
        cases h
        rw [hnone] at hedits
        exact hedits
      case h_2 target s₁ htarget =>
        cases h
        rw [htarget] at hedits
        exact congrArg (· + 1) hedits

/-- A table of constants counts the references that it replaces. -/
theorem ConstantTable.counting (t : ConstantTable) (symbols : SymbolTable) :
    Pass.Counting PassState.edits (t.hooks symbols) where
  typeDecl _ := tells_ask fun _ _ _ h => by cases h; rfl
  typeName _ := tells_ask fun _ _ _ h => by cases h; rfl
  expr e := by
    cases e with
    | name i => exact tells_ask fun _ _ _ h => by cases h; rfl
    | access a => exact tells_ask fun _ _ _ => edits_replace
    | call c => exact tells_ask fun _ _ _ h => by cases h; rfl
    | _ => exact .pure rfl

/-! ### Reports -/

/-- The report says that something changed exactly when it counts a replaced node, and otherwise the
module is still `m`. -/
def Applied.Faithful (m : Module) (a : Applied) : Prop :=
  (a.report.changed = true ↔ 0 < a.report.edits) ∧ (a.report.changed = false → a.module = m)

namespace Recipe

theorem pass_tells {r : Recipe} {pass : SymbolTable → Module → Pass PassState (Option Module)}
    (hr : r.pass? = some pass) (symbols : SymbolTable) (m : Module) :
    Pass.Tells PassState.edits false (pass symbols m) := by
  cases r with
  | changeSupertype c =>
    cases hr
    exact (c.counting symbols).transform_tells _ m
  | changeConstant t =>
    cases hr
    exact (t.counting symbols).transform_tells _ m
  | changeConstants t =>
    cases hr
    exact (t.counting symbols).transform_tells _ m
  | pipeline name recipes => cases hr

theorem faithful_leaf {r : Recipe} {pass : SymbolTable → Module → Pass PassState (Option Module)}
    (hr : r.pass? = some pass) {index : TypeIndex} {m : Module} {a : Applied}
    (h : r.apply index m = some (.ok a)) : a.Faithful m := by
  rw [apply_of_pass? hr] at h
  obtain ⟨⟨changed, s⟩, hrun, h⟩ := Option.map_eq_some_iff.mp h
  obtain ⟨_, htells⟩ := pass_tells hr _ m _ changed s hrun
  dsimp only at h
  split at h
  case h_1 =>
    cases h
    exact ⟨by simp, fun _ => rfl⟩
  case h_2 changed =>
    split at h
    case h_1 => cases h
    case h_2 out imports _ =>
      cases h
      refine ⟨iff_of_true rfl ?_, fun hchanged => by cases hchanged⟩
      exact (htells.mp rfl).resolve_left Bool.false_ne_true

theorem faithful_run {index : TypeIndex} {us : List Recipe}
    (hus : ∀ u ∈ us, ∀ m a, u.apply index m = some (.ok a) → a.Faithful m)
    {m out : Module} {steps : List Applied}
    (h : runInOrder index us m = .finished steps out) :
    (anyChanged steps = true ↔ 0 < totalEdits steps) ∧ (anyChanged steps = false → out = m) := by
  induction us generalizing m steps with
  | nil =>
    cases h
    exact ⟨by simp [anyChanged, totalEdits], fun _ => rfl⟩
  | cons u us ih =>
    rw [runInOrder] at h
    split at h
    case h_1 => cases h
    case h_2 => cases h
    case h_3 a hok =>
      obtain ⟨hiff, hsame⟩ := hus u List.mem_cons_self m a hok
      cases hrest : runInOrder index us a.module with
      | failed more last failure =>
        rw [hrest] at h
        cases h
      | endless =>
        rw [hrest] at h
        cases h
      | finished more out' =>
        rw [hrest] at h
        cases h
        obtain ⟨hiffs, hsames⟩ := ih (fun v hv => hus v (List.mem_cons_of_mem u hv)) hrest
        have htotal : totalEdits (a :: more) = a.report.edits + totalEdits more := rfl
        have hany : anyChanged (a :: more) = (a.report.changed || anyChanged more) := rfl
        rw [List.singleton_append, htotal, hany]
        refine ⟨?_, fun hnone => ?_⟩
        · rw [Bool.or_eq_true, hiff, hiffs]
          omega
        · obtain ⟨hfirst, hothers⟩ := Bool.or_eq_false_iff.mp hnone
          exact (hsames hothers).trans (hsame hfirst)

/-- **A recipe that changes nothing leaves the module as it was**, down to the numbers of its nodes,
and it changes something exactly when it counts a replaced node. So a source to which nothing applies
is printed back as it was read. -/
theorem apply_unchanged {r : Recipe} {index : TypeIndex} {m : Module} {a : Applied}
    (h : r.apply index m = some (.ok a)) :
    (a.report.changed = true ↔ 0 < a.report.edits) ∧
    (a.report.changed = false → a.module = m) ∧
    ∀ source, Module.parse source = .ok m → a.report.changed = false →
      a.module.print = source := by
  have hfaithful : a.Faithful m := by
    have hsum : Summarizes (r.apply index m) (runInOrder index r.leaves m) := apply_summarizes r m
    rw [h] at hsum
    cases hrun : runInOrder index r.leaves m with
    | endless =>
      rw [hrun] at hsum
      cases hsum
    | failed steps last failure =>
      rw [hrun] at hsum
      obtain ⟨e, heq, _⟩ := hsum
      cases heq
    | finished steps out =>
      rw [hrun] at hsum
      obtain ⟨a', heq, rfl, hedits, hchanged⟩ := hsum
      cases heq
      rw [Applied.Faithful, hedits, hchanged]
      refine faithful_run (fun u hu m a happly => ?_) hrun
      obtain ⟨pass, hpass⟩ := exists_pass_of_mem_leaves r hu
      exact faithful_leaf hpass happly
  refine ⟨hfaithful.1, hfaithful.2, fun source hparse hsame => ?_⟩
  rw [hfaithful.2 hsame]
  exact print_of_parse hparse

/-- A class with another superclass is left alone, and so is its comment. -/
theorem apply_unchanged_other : ∃ c m a,
    SupertypeChange.ofNames "Vehicle" "q.Car" = .ok c ∧
    Module.parse "class X  extends Other /* kept */ {}" = .ok m ∧
    (pipeline "outer" [pipeline "inner" [changeSupertype c]]).apply (.ofList []) m
      = some (.ok a) ∧
    a.report.edits = 0 ∧ a.module = m ∧
    a.module.print = "class X  extends Other /* kept */ {}" := by
  have hcheck : (do
      let c ← (SupertypeChange.ofNames "Vehicle" "q.Car").toOption
      let m ← (Module.parse "class X  extends Other /* kept */ {}").toOption
      let a ← ((pipeline "outer" [pipeline "inner" [changeSupertype c]]).apply (.ofList []) m).bind
        Except.toOption
      return !a.report.changed : Option Bool) = some true := by
    decide +kernel
  obtain ⟨c, hc, hcheck⟩ := Option.bind_eq_some_iff.mp hcheck
  obtain ⟨m, hm, hcheck⟩ := Option.bind_eq_some_iff.mp hcheck
  obtain ⟨a, ha, hcheck⟩ := Option.bind_eq_some_iff.mp hcheck
  obtain ⟨outcome, happly, hok⟩ := Option.bind_eq_some_iff.mp ha
  rw [eq_ok_of_toOption hok] at happly
  have hsame : a.report.changed = false := (Bool.not_eq_true' _).mp (Option.some.inj hcheck)
  obtain ⟨hiff, hmodule, hprint⟩ := apply_unchanged happly
  refine ⟨c, m, a, eq_ok_of_toOption hc, eq_ok_of_toOption hm, happly, ?_, hmodule hsame,
    hprint _ (eq_ok_of_toOption hm) hsame⟩
  by_contra hedits
  rw [hiff.mpr (Nat.pos_of_ne_zero hedits)] at hsame
  cases hsame

end Recipe

end Migration
