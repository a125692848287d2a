import Migration.Proofs.Rule.Notes
import Migration.Proofs.Traversal.Numbered
import Migration.Proofs.Traversal.Observed

/-!
# How many numbers a pass takes

A change of superclasses gives no new numbers. Moving a constant does where an owner is written in full:
its chain of names takes one number for the first segment and two for each other one, the access and its
name (`nameChain_numbers`). The next number alone does not tell how many were taken, since it wraps around,
so they are counted beside the pass (`ConstantTable.numbersTaken`).

Main result: the numbers after a pass are those before it and the next ones, as many as were counted
(`Recipe.pass_numbers`). Some may be lost, since a chain may be replaced by another one in the same pass.
-/

namespace Migration

/-! ### Chains -/

theorem chainOnto_numbers (target : Expr) (next : NodeId) (names : List String) :
    (chainOnto target next names).2 = next + UInt32.ofNat (2 * names.length) ∧
      Grown next (2 * names.length) target.ids (chainOnto target next names).1.ids := by
  induction names generalizing target next with
  | nil => exact ⟨(UInt32.add_zero next).symm, .refl _ _ _⟩
  | cons name names ih =>
    obtain ⟨hnext, hrest⟩ := ih (.access ⟨next, target, "", ⟨next + 1, "", name⟩, none⟩) (next + 2)
    have hlink : Grown next 2 target.ids
        (Expr.access ⟨next, target, "", ⟨next + 1, "", name⟩, none⟩).ids := by
      intro id
      rw [Expr.ids_access, List.count_append, Nat.add_comm]
      exact Nat.le_refl _
    have hlength : 2 * (name :: names).length = 2 + 2 * names.length := by
      rw [List.length_cons]
      omega
    rw [chainOnto, hlength]
    refine ⟨?_, hlink.trans hrest⟩
    rw [hnext, next_add]
    rfl

/-- The numbers of a chain are the next ones. -/
theorem nameChain_numbers (next : NodeId) (lead : Trivia) (name : String) :
    (nameChain next lead name).2 = next + UInt32.ofNat (2 * (Name.segments name).length - 1) ∧
      Grown next (2 * (Name.segments name).length - 1) [] (nameChain next lead name).1.ids := by
  rw [nameChain]
  cases hsegments : Name.segments name with
  | nil => exact absurd hsegments (Name.segments_ne_nil name)
  | cons first rest =>
    obtain ⟨hnext, hrest⟩ := chainOnto_numbers (.name ⟨next, lead, first⟩) (next + 1) rest
    have hfirst : Grown next 1 [] (Expr.name ⟨next, lead, first⟩).ids :=
      fun _ => Nat.le_add_left _ _
    have hlength : 2 * (first :: rest).length - 1 = 1 + 2 * rest.length := by
      rw [List.length_cons]
      omega
    rw [hlength]
    refine ⟨?_, hfirst.trans hrest⟩
    rw [hnext, next_add]
    rfl

/-! ### Changing superclasses -/

namespace SupertypeChange

variable {c : SupertypeChange} {symbols : SymbolTable}

theorem nextId_replace {d : TypeDecl} {s s' : PassState} {r : Option TypeDecl}
    (h : c.replace symbols d s = (r, s')) : s'.nextId = s.nextId := by
  have hrespell (t : TypeName) : (c.respell symbols t s).2.nextId = s.nextId := by
    rw [respell]
    split
    · split <;> rfl
    · rfl
  rw [replace] at h
  split at h
  case isFalse =>
    cases h
    rfl
  case isTrue =>
    split at h
    case h_1 =>
      cases h
      rfl
    case h_2 t _ =>
      have hnext := hrespell t
      split at h
      case h_1 hnone =>
        cases h
        rw [hnone] at hnext
        exact hnext
      case h_2 hname =>
        rw [hname] at hnext
        split at h
        · cases h
          exact hnext
        · cases h
          exact hnext

/-- Neither the numbers of the nodes nor the next number change. -/
theorem threads : Pass.Threads (c.hooks symbols)
    fun s xs s' ys => ys = xs ∧ s'.nextId = s.nextId where
  keep _ _ := ⟨rfl, rfl⟩
  append h h' := ⟨by rw [h.1, h'.1], h'.2.trans h.2⟩
  trans h h' := ⟨h'.1.trans h.1, h'.2.trans h.2⟩
  quiet _ _ := rfl
  expr {s s₁ x r} hask := by
    obtain ⟨rfl, rfl⟩ := SupertypeChange.askExpr_hooks hask
    exact ⟨rfl, rfl⟩
  decl {s s₁ d r} hask := by
    refine ⟨?_, nextId_replace hask⟩
    rcases replace_cases hask with ⟨rfl, _⟩ | ⟨id, lead, t, after, name, _, hextending, _, rfl, _⟩
    · rfl
    · rw [Option.getD_some, TypeDecl.ids_eq, TypeDecl.ids_eq, TypeDecl.frontIds, TypeDecl.frontIds,
        headerIds, headerIds, hextending]
      simp only [Option.toList_some, List.flatMap_singleton, TypeClause.ids, TypeName.idsAll,
        TypeName.ids_withName]

end SupertypeChange

/-! ### Moving constants -/

/-- How many numbers the new target of an access takes. -/
def ConstantChange.numbersAt (c : ConstantChange) (symbols : SymbolTable) (a : FieldAccess) : Nat :=
  if c.ownerChanges && !a.target.isName then 2 * ConstantTable.chainLength symbols c - 1 else 0

theorem ConstantChange.retarget_numbers {c : ConstantChange} {symbols : SymbolTable}
    {a : FieldAccess} {s s' : PassState} {r : Option Expr}
    (h : c.retarget symbols a s = (r, s')) :
    s'.nextId = s.nextId + UInt32.ofNat (c.numbersAt symbols a) ∧
      Grown s.nextId (c.numbersAt symbols a) a.target.ids (r.getD a.target).ids := by
  rw [retarget] at h
  rw [numbersAt]
  cases howner : c.ownerChanges with
  | false =>
    rw [howner] at h
    cases h
    exact ⟨(UInt32.add_zero _).symm, .refl _ _ _⟩
  | true =>
    rw [howner] at h
    dsimp only [Bool.not_true] at h
    split at h
    case isTrue hfalse => cases hfalse
    case isFalse =>
      split at h
      case h_1 i hi =>
        cases h
        rw [hi]
        exact ⟨(UInt32.add_zero _).symm, .refl _ _ _⟩
      case h_2 hother =>
        have hname : a.target.isName = false := by
          cases hx : a.target with
          | name i => exact absurd hx (hother i)
          | _ => rfl
        rw [hname, ConstantTable.chainLength]
        split at h
        case h_1 hunknown =>
          cases h
          rw [hunknown]
          exact ⟨(UInt32.add_zero _).symm, .refl _ _ _⟩
        case h_2 full hfull =>
          cases h
          rw [hfull]
          obtain ⟨hnext, hchain⟩ := nameChain_numbers s.nextId a.target.lead full
          exact ⟨hnext, fun id => Nat.le_trans (hchain id) (by simp)⟩

namespace ConstantTable

/-- How many numbers the replacement of an access takes. -/
def numbersAt (t : ConstantTable) (symbols : SymbolTable) (a : FieldAccess) : Nat :=
  match t.find? symbols a with
  | some c => if a.target.dottedName?.any Name.isTypeQualifier then c.numbersAt symbols a else 0
  | none => 0

/-- How many numbers the answer to a call takes. -/
def numbersOf (t : ConstantTable) (symbols : SymbolTable) : HookCall → Nat
  | .access a _ => t.numbersAt symbols a
  | _ => 0

/-- The hooks of the table, with a count of the numbers that they take. -/
def countedHooks (t : ConstantTable) (symbols : SymbolTable) : Hooks (PassState × Nat) :=
  (t.hooks symbols).observed fun n call => n + t.numbersOf symbols call

/-- How many numbers a pass over a module takes. -/
def numbersTaken (t : ConstantTable) (symbols : SymbolTable) (m : Module) : Nat :=
  match m.transform (t.countedHooks symbols) (t.depthBound symbols m) (.start m, 0) with
  | some (_, _, n) => n
  | none => 0

variable {t : ConstantTable} {symbols : SymbolTable}

/-- **What replacing a constant does to the numbers**: it takes the next ones for a chain. -/
theorem replace_numbers {a : FieldAccess} {s s' : PassState} {r : Option Expr}
    (h : t.replace symbols a s = (r, s')) :
    s'.nextId = s.nextId + UInt32.ofNat (t.numbersAt symbols a) ∧
      Grown s.nextId (t.numbersAt symbols a) (Expr.access a).ids (r.getD (.access a)).ids := by
  rw [replace] at h
  rw [numbersAt]
  cases hfind : t.find? symbols a with
  | none =>
    rw [hfind] at h
    cases h
    exact ⟨(UInt32.add_zero _).symm, .refl _ _ _⟩
  | some c =>
    rw [hfind] at h
    dsimp only at h ⊢
    rw [ConstantChange.replace] at h
    split at h
    case isFalse hspelled =>
      cases h
      rw [if_neg hspelled]
      exact ⟨(UInt32.add_zero _).symm, .refl _ _ _⟩
    case isTrue hspelled =>
      rw [if_pos hspelled]
      cases hretarget : c.retarget symbols a s with
      | mk target s₁ =>
        obtain ⟨hnext, htarget⟩ := ConstantChange.retarget_numbers hretarget
        rw [hretarget] at h
        cases target with
        | none =>
          cases h
          exact ⟨hnext, .refl _ _ _⟩
        | some target =>
          cases h
          refine ⟨hnext, ?_⟩
          rw [Option.getD_some, Expr.ids_access, Expr.ids_access]
          exact htarget.after [a.id, a.name.id]

/-- The numbers after a step are those before it and the next ones, as many as it counted. -/
def Takes : Change (PassState × Nat) (List NodeId) := fun s xs s' ys =>
  ∃ n, s'.2 = s.2 + n ∧ s'.1.nextId = s.1.nextId + UInt32.ofNat n ∧ Grown s.1.nextId n xs ys

theorem Takes.none {s : PassState × Nat} {xs : List NodeId} : Takes s xs s xs :=
  ⟨0, rfl, (UInt32.add_zero _).symm, .refl _ _ _⟩

theorem threads : Pass.Threads (t.countedHooks symbols) Takes where
  keep _ _ := .none
  append := by
    rintro s s₁ s₂ xs ys xs' ys' ⟨n, hcount, hnext, hids⟩ ⟨k, hcount', hnext', hids'⟩
    rw [hnext] at hids'
    exact ⟨n + k, by omega, by rw [hnext', hnext, next_add], hids.append hids'⟩
  trans := by
    rintro s s₁ s₂ xs ys zs ⟨n, hcount, hnext, hids⟩ ⟨k, hcount', hnext', hids'⟩
    rw [hnext] at hids'
    exact ⟨n + k, by omega, by rw [hnext', hnext, next_add], hids.trans hids'⟩
  quiet _ _ := rfl
  expr {s s₁ x r} hask := by
    cases x with
    | access a =>
      cases hask
      obtain ⟨hnext, hids⟩ := replace_numbers (show t.replace symbols a s.1 = (_, _) from rfl)
      exact ⟨_, rfl, hnext, hids⟩
    | _ =>
      cases hask
      exact .none
  decl {s s₁ d r} hask := by
    cases hask
    exact .none

/-- **What a pass does to the numbers.** -/
theorem pass_numbers {m : Module} {changed : Option Module} {s : PassState}
    (hrun : t.pass symbols m (.start m) = some (changed, s)) :
    ∃ types, changed.getD m = { m with types }
      ∧ s.nextId = m.nextId + UInt32.ofNat (t.numbersTaken symbols m)
      ∧ Grown m.nextId (t.numbersTaken symbols m) (m.types.flatMap TypeDecl.ids)
        (types.flatMap TypeDecl.ids) := by
  have hforgets := Pass.transform_forgets (t.hooks symbols)
    (fun n call => n + t.numbersOf symbols call) (t.depthBound symbols m) m (.start m) 0
  rw [pass, passWithin] at hrun
  rw [hrun] at hforgets
  obtain ⟨⟨changed', s', taken⟩, hcounted, heq⟩ := Option.map_eq_some_iff.mp hforgets
  cases heq
  obtain ⟨types, hout, n, hcount, hnext, hids⟩ := threads.transform hcounted
  have htaken : t.numbersTaken symbols m = n := by
    rw [numbersTaken, countedHooks, hcounted]
    exact hcount.trans (Nat.zero_add n)
  rw [htaken]
  exact ⟨types, hout, hnext, hids⟩

end ConstantTable

namespace Recipe

/-- How many numbers the pass of a recipe over a module takes. -/
def passNumbers (index : TypeIndex) (m : Module) : Recipe → Nat
  | .changeConstant t => t.numbersTaken (.ofModule m index) m
  | .changeConstants t => t.numbersTaken (.ofModule m index) m
  | _ => 0

/-- **The numbers after a pass** are those before it and the next ones, as many as were counted. -/
theorem pass_numbers {r : Recipe} {pass : SymbolTable → Module → Pass PassState (Option Module)}
    (hr : r.pass? = some pass) {index : TypeIndex} {m : Module} {changed : Option Module}
    {s : PassState} (hrun : pass (.ofModule m index) m (.start m) = some (changed, s)) :
    ∃ types, changed.getD m = { m with types }
      ∧ s.nextId = m.nextId + UInt32.ofNat (r.passNumbers index m)
      ∧ Grown m.nextId (r.passNumbers index m) (m.types.flatMap TypeDecl.ids)
        (types.flatMap TypeDecl.ids) := by
  cases r with
  | changeSupertype c =>
    cases hr
    obtain ⟨types, hout, hids, hnext⟩ := SupertypeChange.threads.transform hrun
    refine ⟨types, hout, hnext.trans (UInt32.add_zero _).symm, ?_⟩
    rw [hids]
    exact .refl _ _ _
  | changeConstant t =>
    cases hr
    exact ConstantTable.pass_numbers hrun
  | changeConstants t =>
    cases hr
    exact ConstantTable.pass_numbers hrun
  | pipeline name recipes => cases hr

end Recipe

end Migration
