import Migration.Proofs.Imports.Numbered
import Migration.Proofs.Recipe.Sequence
import Migration.Proofs.Rule.Numbered
import Migration.Recipe.Manifest

/-!
# Recipes keep modules numbered

A leaf takes the numbers of its pass and one for each import that it adds. As long as they do not wrap
around, the module that it gives is numbered again, and its next number is past all that were taken
(`numbered_leaf`). So is the module at the end of a run of leaves, if there is room for what all of them
take together (`runInOrder_numbered`), and with it the one that any recipe leaves, whether it succeeds or
fails (`apply_numbered`).
-/

namespace Migration

namespace Recipe

/-- How many numbers a leaf takes that changes `m` as in `a`. -/
def leafNumbers (index : TypeIndex) (u : Recipe) (m : Module) (a : Applied) : Nat :=
  u.passNumbers index m + a.report.importsAdded.length

/-- How many numbers leaves take one after the other, as long as they succeed. -/
def numbersTaken (index : TypeIndex) : List Recipe → Module → Nat
  | [], _ => 0
  | u :: us, m =>
    match u.apply index m with
    | some (.ok a) => leafNumbers index u m a + numbersTaken index us a.module
    | _ => 0

variable {index : TypeIndex} {m : Module}

/-- **A leaf keeps modules numbered.** -/
theorem numbered_leaf {u : Recipe} {pass : SymbolTable → Module → Pass PassState (Option Module)}
    (hu : u.pass? = some pass) {a : Applied} (h : u.apply index m = some (.ok a))
    (hm : m.Numbered) (hroom : m.nextId.toNat + leafNumbers index u m a < UInt32.size) :
    a.module.Numbered ∧ m.nextId.toNat ≤ a.module.nextId.toNat ∧
      a.module.nextId.toNat ≤ m.nextId.toNat + leafNumbers index u m a := by
  rw [apply_of_pass? hu] at h
  obtain ⟨⟨changed, s⟩, hrun, h⟩ := Option.map_eq_some_iff.mp h
  dsimp only at h
  split at h
  case h_1 =>
    cases h
    exact ⟨hm, Nat.le_refl _, Nat.le_add_right _ _⟩
  case h_2 changed =>
    split at h
    case h_1 => cases h
    case h_2 out imports hreconcile =>
      cases h
      rw [leafNumbers] at hroom ⊢
      dsimp only at hroom ⊢
      obtain ⟨types, hchanged, hstate, htypes⟩ := pass_numbers hu hrun
      cases hchanged
      obtain ⟨hnext, hids⟩ := Module.reconcile_numbers hreconcile
      rw [hstate] at hnext hids
      rw [← next_add] at hnext
      -- The pass takes the first numbers, the imports those behind them.
      have hgrown : Grown m.nextId (u.passNumbers index m + imports.added.length) m.ids out.ids :=
        (htypes.after _).trans hids
      have hmax := toNat_max_next hroom
      rw [← hnext] at hmax
      exact ⟨hm.extend hroom hgrown hmax, by omega, hmax.le⟩

/-- **Leaves that run one after the other keep modules numbered.** -/
theorem runInOrder_numbered {us : List Recipe} (hus : ∀ u ∈ us, ∃ pass, u.pass? = some pass)
    (hm : m.Numbered) (hroom : m.nextId.toNat + numbersTaken index us m < UInt32.size) :
    (runInOrder index us m).Ends fun out => out.Numbered ∧ m.nextId.toNat ≤ out.nextId.toNat := by
  induction us generalizing m with
  | nil => exact ⟨hm, Nat.le_refl _⟩
  | cons u us ih =>
    rw [numbersTaken] at hroom
    rw [runInOrder]
    cases hone : u.apply index m with
    | none => trivial
    | some outcome =>
      cases outcome with
      | error e => exact ⟨hm, Nat.le_refl _⟩
      | ok a =>
        rw [hone] at hroom
        dsimp only at hroom ⊢
        obtain ⟨pass, hu⟩ := hus u List.mem_cons_self
        obtain ⟨hnumbered, hge, hle⟩ := numbered_leaf hu hone hm (by omega)
        have hrest := ih (fun v hv => hus v (List.mem_cons_of_mem u hv)) hnumbered (by omega)
        exact (hrest.mono fun out hout => ⟨hout.1, hge.trans hout.2⟩).after [a]

/-- **Recipes keep modules numbered**: where there is room for the numbers that are taken, the module that
a recipe gives, or that was reached when it failed, has no number twice and all of them below its next
one, and the next number has not gone back. -/
theorem apply_numbered {r : Recipe} (hm : m.Numbered)
    (hroom : m.nextId.toNat + numbersTaken index r.leaves m < UInt32.size)
    {outcome : Except ApplyError Applied} (h : r.apply index m = some outcome) :
    (lastModule outcome).Numbered ∧ m.nextId ≤ (lastModule outcome).nextId := by
  have hrun := runInOrder_numbered (fun u hu => exists_pass_of_mem_leaves r hu) hm hroom
  obtain ⟨hnumbered, hnext⟩ := holds_lastModule hrun h
  exact ⟨hnumbered, UInt32.le_iff_toNat_le.mpr hnext⟩

/-- A chain of three names and an import are put in before the last recipe fails. -/
theorem apply_numbered_committed : ∃ r m outcome,
    Manifest.build ⟨none, [.changeConstant ⟨"p.K", "X", "q.r.L", "Y"⟩, .changeSupertype "V" "q.B",
      .changeSupertype "W" "Z"]⟩ = .ok r ∧
    Module.parse "class A extends V { int a = p.K.X; } class C extends W {}" = .ok m ∧
    r.apply (.ofList []) m = some outcome ∧
    (lastModule outcome).print
      = "import q.B;\n\nclass A extends B { int a = q.r.L.Y; } class C extends W {}" ∧
    numbersTaken (.ofList []) r.leaves m = 6 ∧
    (lastModule outcome).Numbered ∧ m.nextId ≤ (lastModule outcome).nextId := by
  have hcheck : (do
      let r ← (Manifest.build ⟨none, [.changeConstant ⟨"p.K", "X", "q.r.L", "Y"⟩,
        .changeSupertype "V" "q.B", .changeSupertype "W" "Z"]⟩).toOption
      let m ← (Module.parse "class A extends V { int a = p.K.X; } class C extends W {}").toOption
      let outcome ← r.apply (.ofList []) m
      return (decide m.Numbered && decide (m.nextId.toNat < 1000))
        && (decide (numbersTaken (.ofList []) r.leaves m = 6) && (lastModule outcome).print
          == "import q.B;\n\nclass A extends B { int a = q.r.L.Y; } class C extends W {}")
      : Option Bool) = some true := by
    decide +kernel
  obtain ⟨r, hr, hcheck⟩ := Option.bind_eq_some_iff.mp hcheck
  obtain ⟨m, hm, hcheck⟩ := Option.bind_eq_some_iff.mp hcheck
  obtain ⟨outcome, happly, hcheck⟩ := Option.bind_eq_some_iff.mp hcheck
  simp only [pure, Option.some.injEq, Bool.and_eq_true, decide_eq_true_eq, beq_iff_eq] at hcheck
  obtain ⟨⟨hnumbered, hsmall⟩, htaken, hprint⟩ := hcheck
  have hroom : m.nextId.toNat + numbersTaken (.ofList []) r.leaves m < UInt32.size := by
    rw [htaken, UInt32.size]
    omega
  exact ⟨r, m, outcome, eq_ok_of_toOption hr, eq_ok_of_toOption hm, happly, hprint, htaken,
    apply_numbered hnumbered hroom happly⟩

end Recipe

end Migration
