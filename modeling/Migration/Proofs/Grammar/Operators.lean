import Migration.Proofs.Grammar.RoundTrip
import Migration.Proofs.Traversal.Nodes

/-!
# Operators by level

How tightly the operands of an operation hold together, wherever the operation stands in a parsed
module (`Module.levels_of_parse`). Left of an operator of any level but the first stands nothing looser
than the operator, and right of it only what binds tighter: a row of operators of one level is read from
the left. An assignment has no assignment on its left and anything on its right: a row of assignments is
read from the right. What a member is selected from is no operation unless it stands between parentheses.

All of this is part of what it means for an expression to be well formed, so it holds at every node of
every tree that the grammar produces. That nothing more is asked of the right operand of an assignment is
seen on one source for each level (`Module.exists_assigned_level`).
-/

namespace Migration

/-! ### Levels -/

theorem operatorLevel_eq {k : Nat} {level : List String} {op : String}
    (hlevel : operatorLevels[k]? = some level) (hop : op ∈ level) : operatorLevel op = k := by
  have hall : ∀ k, ∀ hk : k < operatorLevels.length, ∀ op ∈ operatorLevels[k],
      operatorLevel op = k := by decide
  obtain ⟨hk, rfl⟩ := List.getElem?_eq_some_iff.mp hlevel
  exact hall k hk op hop

theorem exists_mem_operatorLevels {op : String} (h : operatorLevel op < operatorLevels.length) :
    ∃ level ∈ operatorLevels, op ∈ level := by
  have hfound := List.findIdx_getElem (p := fun level : List String => level.contains op) (w := h)
  exact ⟨_, List.getElem_mem h, List.contains_iff_mem.mp hfound⟩

/-- What is no operation is above all levels. -/
theorem Expr.level_eq_length_iff {e : Expr} {dotted : Bool} (h : e.WellFormed dotted) :
    e.level = operatorLevels.length ↔ ∀ b, e ≠ .binary b := by
  cases e with
  | binary b =>
    obtain ⟨id, left, opLead, op, right⟩ := b
    obtain ⟨_, _, hop, _⟩ := h
    exact iff_of_false (Nat.ne_of_lt hop) fun hnone => hnone _ rfl
  | _ => exact iff_of_true rfl fun b => nofun

/-! ### Operations and selections at a node -/

section

variable {source : String} {m : Module} (hparse : Module.parse source = .ok m)

include hparse

/-- What stands at any node of a parsed module is well formed. -/
theorem Module.wellFormed_of_mem_preorder {n : Node} (hn : n ∈ m.outline.preorder) : n.WellFormed := by
  refine Module.nodes_wellFormed (parse_sound hparse).2.2 n ?_
  rw [Outline.preorderAll, Outline.preorderAll, List.append_nil]
  exact hn

theorem Binary.levels_of_operands {b : Binary} (hb : .expr (.binary b) ∈ m.outline.preorder) :
    operatorLevel b.op < operatorLevels.length ∧ 1 ≤ b.left.level
      ∧ operatorLevel b.op ≤ b.left.level
      ∧ (operatorLevel b.op = 0 ∨ operatorLevel b.op < b.right.level) := by
  obtain ⟨_, hwf⟩ := Module.wellFormed_of_mem_preorder hparse hb
  obtain ⟨id, left, opLead, op, right⟩ := b
  exact hwf.2.2

theorem FieldAccess.target_ne_binary {a : FieldAccess} (ha : .access a ∈ m.outline.preorder) :
    ∀ b, a.target ≠ .binary b := by
  obtain ⟨_, hwf⟩ := Module.wellFormed_of_mem_preorder hparse ha
  obtain ⟨id, target, dot, member, owner⟩ := a
  exact (Expr.level_eq_length_iff hwf.1).mp hwf.2.1

theorem MethodCall.target_ne_binary {c : MethodCall} (hc : .call c ∈ m.outline.preorder) :
    ∀ b, c.target ≠ some (.binary b) := by
  obtain ⟨_, hwf⟩ := Module.wellFormed_of_mem_preorder hparse hc
  obtain ⟨id, _ | target, dot, member, args⟩ := c
  · exact fun b => nofun
  · intro b htarget
    exact (Expr.level_eq_length_iff hwf.1).mp hwf.2.1 b (Option.some.inj htarget)

end

/-! ### Assignments -/

/-- The operation that stands first in the module. -/
def Module.firstOperation? (m : Module) : Option Binary :=
  m.outline.preorder.findSome? fun
    | .expr (.binary b) => some b
    | _ => none

theorem Module.mem_preorder_of_firstOperation? {m : Module} {b : Binary}
    (h : m.firstOperation? = some b) : .expr (.binary b) ∈ m.outline.preorder := by
  obtain ⟨n, hn, hfound⟩ := List.exists_of_findSome?_eq_some h
  split at hfound
  · obtain rfl := Option.some.inj hfound
    exact hn
  · cases hfound

/-- Sources in which an operation of each level in turn is assigned, and a name in the end. -/
def assigningSources : List String :=
  ["class A {int x=a=b=c;}", "class A {int x=a=b||c;}", "class A {int x=a=b&&c;}",
    "class A {int x=a=b==c;}", "class A {int x=a=b<c;}", "class A {int x=a=b+c;}",
    "class A {int x=a=b*c;}", "class A {int x=a=b;}"]

/-- Right of an assignment operations of every level are read. -/
theorem Module.exists_assigned_level {k : Nat} (hk : k ≤ operatorLevels.length) :
    ∃ source m b, Module.parse source = .ok m ∧ .expr (.binary b) ∈ m.outline.preorder
      ∧ b.op = "=" ∧ b.right.level = k := by
  have hall : ∀ k ≤ operatorLevels.length, ((do
      let source ← assigningSources[k]?
      let m ← (Module.parse source).toOption
      let b ← m.firstOperation?
      return b.op == "=" && b.right.level == k : Option Bool) = some true) := by
    decide +kernel
  obtain ⟨source, -, hcheck⟩ := Option.bind_eq_some_iff.mp (hall k hk)
  obtain ⟨m, hm, hcheck⟩ := Option.bind_eq_some_iff.mp hcheck
  obtain ⟨b, hb, hcheck⟩ := Option.bind_eq_some_iff.mp hcheck
  simp only [pure, Option.some.injEq, Bool.and_eq_true, beq_iff_eq] at hcheck
  exact ⟨source, m, b, eq_ok_of_toOption hm, mem_preorder_of_firstOperation? hb, hcheck⟩

/-- **Operations are read by level**, in every parsed module and at every place in it. An operator of a
level other than the first has no looser operation on its left and a tighter one on its right. An
assignment has no assignment on its left, and operations of all levels can stand on its right. What a
field or a method is selected from is no operation. -/
theorem Module.levels_of_parse {source : String} {m : Module} (hparse : Module.parse source = .ok m) :
    (∀ b, .expr (.binary b) ∈ m.outline.preorder →
      (∃ level ∈ operatorLevels, b.op ∈ level) ∧ (b.op = "=" → 1 ≤ b.left.level) ∧
      ∀ k level, operatorLevels[k]? = some level → b.op ∈ level → 1 ≤ k →
        k ≤ b.left.level ∧ k < b.right.level) ∧
    (∀ k ≤ operatorLevels.length, ∃ source' m' b, Module.parse source' = .ok m'
      ∧ .expr (.binary b) ∈ m'.outline.preorder ∧ b.op = "=" ∧ b.right.level = k) ∧
    (∀ a, .access a ∈ m.outline.preorder → ∀ b, a.target ≠ .binary b) ∧
    (∀ c, .call c ∈ m.outline.preorder → ∀ b, c.target ≠ some (.binary b)) := by
  refine ⟨fun b hb => ?_, fun k hk => exists_assigned_level hk,
    fun a => FieldAccess.target_ne_binary hparse, fun c => MethodCall.target_ne_binary hparse⟩
  obtain ⟨hop, hassign, hleft, hright⟩ := Binary.levels_of_operands hparse hb
  refine ⟨exists_mem_operatorLevels hop, fun _ => hassign, fun k level hlevel hmem hk => ?_⟩
  obtain rfl := operatorLevel_eq hlevel hmem
  exact ⟨hleft, hright.resolve_left (Nat.one_le_iff_ne_zero.mp hk)⟩

/-- A row of differences whose last operand binds tighter. -/
theorem Module.levels_of_parse_differences : ∃ m b,
    Module.parse "class A { int x = a - b - c * d; }" = .ok m ∧
      .expr (.binary b) ∈ m.outline.preorder ∧ b.op = "-" ∧
      5 ≤ b.left.level ∧ 5 < b.right.level := by
  have hcheck : (do
      let m ← (Module.parse "class A { int x = a - b - c * d; }").toOption
      let b ← m.firstOperation?
      return b.op == "-" : Option Bool) = some true := by
    decide +kernel
  obtain ⟨m, hm, hcheck⟩ := Option.bind_eq_some_iff.mp hcheck
  obtain ⟨b, hb, hcheck⟩ := Option.bind_eq_some_iff.mp hcheck
  simp only [pure, Option.some.injEq, beq_iff_eq] at hcheck
  have hmem := mem_preorder_of_firstOperation? hb
  obtain ⟨_, _, hlevels⟩ := (levels_of_parse (eq_ok_of_toOption hm)).1 b hmem
  obtain ⟨hleft, hright⟩ := hlevels 5 ["+", "-"] rfl (by rw [hcheck]; decide) (by decide)
  exact ⟨m, b, eq_ok_of_toOption hm, hmem, hcheck, hleft, hright⟩

end Migration
