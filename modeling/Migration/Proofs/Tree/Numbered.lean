import Mathlib.Data.List.Nodup
import Migration.Tree.Basic

/-!
# The numbers of the nodes

Every node of a tree has a number, the words in it included: modifiers, annotations, the names of what is
declared, and those of members. `Module.ids` lists them all. A module is numbered when no two nodes have
the same number and all numbers are below the next one (`Module.Numbered`).

New nodes are numbered from the next number on (`freshIds`), and `Grown` says that nothing but such numbers
has come in. As long as the numbers do not wrap around, a module stays numbered then (`Numbered.extend`).
-/

namespace Migration

/-! ### Types -/

mutual

def TypeName.ids : TypeName → List NodeId
  | ⟨id, _, _, none, _⟩ => [id]
  | ⟨id, _, _, some args, _⟩ => id :: args.ids
termination_by structural t => t

def TypeArguments.ids : TypeArguments → List NodeId
  | ⟨id, ⟨_, items, _⟩⟩ => id :: TypeName.idsAll items
termination_by structural a => a

def TypeName.idsAll : List (Padded TypeName) → List NodeId
  | [] => []
  | ⟨t, _⟩ :: rest => t.ids ++ TypeName.idsAll rest
termination_by structural ps => ps

end

@[simp] theorem TypeName.ids_withName (t : TypeName) (name : String) :
    (t.withName name).ids = t.ids := by
  obtain ⟨_, _, _, args, _⟩ := t
  cases args <;> rfl

/-! ### Expressions -/

mutual

def Expr.ids : Expr → List NodeId
  | .name ident => [ident.id]
  | .literal l => [l.id]
  | .access ⟨id, target, _, member, _⟩ => [id, member.id] ++ target.ids
  | .call ⟨id, none, _, member, ⟨_, items, _⟩⟩ => [id, member.id] ++ Expr.idsAll items
  | .call ⟨id, some target, _, member, ⟨_, items, _⟩⟩ =>
    [id, member.id] ++ (target.ids ++ Expr.idsAll items)
  | .create ⟨id, _, type, ⟨_, items, _⟩⟩ => (id :: type.ids) ++ Expr.idsAll items
  | .binary ⟨id, left, _, _, right⟩ => [id] ++ (left.ids ++ right.ids)
  | .parens ⟨id, _, inner, _⟩ => [id] ++ inner.ids
termination_by structural e => e

def Expr.idsAll : List (Padded Expr) → List NodeId
  | [] => []
  | ⟨e, _⟩ :: rest => e.ids ++ Expr.idsAll rest
termination_by structural ps => ps

end

theorem Expr.ids_access (a : FieldAccess) :
    (Expr.access a).ids = [a.id, a.name.id] ++ a.target.ids := by
  obtain ⟨_, _, _, _, _⟩ := a
  rfl

/-! ### Statements and declarations -/

def Variable.ids (v : Variable) : List NodeId :=
  (v.id :: v.name.id :: v.modifiers.map (·.id) ++ v.type.ids)
    ++ v.value.toList.flatMap (·.value.ids)

mutual

def Stmt.ids : Stmt → List NodeId
  | .expr s => [s.id] ++ s.expr.ids
  | .localVar v => v.ids
  | .ret s => [s.id] ++ s.value.toList.flatMap Expr.ids
  | .block b => b.ids
termination_by structural s => s

def Block.ids : Block → List NodeId
  | ⟨id, _, statements, _⟩ => [id] ++ Stmt.idsAll statements
termination_by structural b => b

def Stmt.idsAll : List Stmt → List NodeId
  | [] => []
  | s :: rest => s.ids ++ Stmt.idsAll rest
termination_by structural ss => ss

end

def Param.ids (p : Param) : List NodeId :=
  p.id :: p.name.id :: p.modifiers.map (·.id) ++ p.type.ids

def MethodBody.ids : MethodBody → List NodeId
  | .block b => b.ids
  | .absent _ => []

/-- The numbers of a method in front of its body. -/
def Method.headerIds (m : Method) : List NodeId :=
  m.id :: m.name.id :: m.modifiers.map (·.id) ++ m.returnType.toList.flatMap TypeName.ids
    ++ m.params.items.flatMap (·.elem.ids)

def Method.ids (m : Method) : List NodeId := m.headerIds ++ m.body.ids

def TypeClause.ids (c : TypeClause) : List NodeId := c.id :: TypeName.idsAll c.types

/-- The numbers of the names and types in front of the members of a type. -/
def headerIds (name : Ident) (modifiers : List Ident) (typeParams : Option TypeArguments)
    (extending implementing : Option TypeClause) : List NodeId :=
  name.id :: modifiers.map (·.id) ++ typeParams.toList.flatMap TypeArguments.ids
    ++ extending.toList.flatMap TypeClause.ids ++ implementing.toList.flatMap TypeClause.ids

mutual

def Member.ids : Member → List NodeId
  | .field v => v.ids
  | .method m => m.ids
  | .type d => d.ids
termination_by structural m => m

def TypeDecl.ids : TypeDecl → List NodeId
  | ⟨id, _, modifiers, _, _, name, typeParams, extending, implementing, body⟩ =>
    (id :: headerIds name modifiers typeParams extending implementing) ++ body.ids
termination_by structural d => d

def TypeBody.ids : TypeBody → List NodeId
  | ⟨id, _, members, _⟩ => [id] ++ Member.idsAll members
termination_by structural b => b

def Member.idsAll : List Member → List NodeId
  | [] => []
  | m :: rest => m.ids ++ Member.idsAll rest
termination_by structural ms => ms

end

/-- The numbers of a type declaration in front of its members. -/
def TypeDecl.frontIds (d : TypeDecl) : List NodeId :=
  (d.id :: headerIds d.name d.modifiers d.typeParams d.extending d.implementing) ++ [d.body.id]

theorem TypeDecl.ids_eq (d : TypeDecl) : d.ids = d.frontIds ++ Member.idsAll d.body.members := by
  obtain ⟨_, _, _, _, _, _, _, _, _, ⟨_, _, _, _⟩⟩ := d
  rw [TypeDecl.ids, TypeBody.ids, TypeDecl.frontIds, List.append_assoc]

/-- The numbers of all nodes of a module. -/
def Module.ids (m : Module) : List NodeId :=
  m.id :: m.package.toList.map (·.id) ++ m.imports.map (·.id) ++ m.types.flatMap TypeDecl.ids

/-- No two nodes have the same number, and all numbers are below the next one. -/
structure Module.Numbered (m : Module) : Prop where
  nodup : m.ids.Nodup
  below : ∀ id ∈ m.ids, id < m.nextId

theorem Module.numbered_iff (m : Module) :
    m.Numbered ↔ m.ids.Nodup ∧ m.ids.all (· < m.nextId) = true := by
  simp only [List.all_eq_true, decide_eq_true_eq]
  exact ⟨fun h => ⟨h.nodup, h.below⟩, fun h => ⟨h.1, h.2⟩⟩

-- The test goes through the list; all numbers there are would be too many to try.
instance (m : Module) : Decidable m.Numbered := decidable_of_iff' _ m.numbered_iff

/-! ### New numbers -/

/-- The numbers from `next` on. -/
def freshIds (next : NodeId) : Nat → List NodeId
  | 0 => []
  | n + 1 => next :: freshIds (next + 1) n

theorem next_add (next : NodeId) (n k : Nat) :
    next + UInt32.ofNat (n + k) = next + UInt32.ofNat n + UInt32.ofNat k := by
  rw [UInt32.ofNat_add, UInt32.add_assoc]

theorem freshIds_add (next : NodeId) (n k : Nat) :
    freshIds next (n + k) = freshIds next n ++ freshIds (next + UInt32.ofNat n) k := by
  induction n generalizing next with
  | zero =>
    rw [Nat.zero_add, freshIds, List.nil_append]
    exact congrArg (freshIds · k) (UInt32.add_zero next).symm
  | succ n ih =>
    have hnext : next + UInt32.ofNat (n + 1) = next + 1 + UInt32.ofNat n := by
      rw [Nat.add_comm, next_add]
      rfl
    rw [Nat.succ_add, freshIds, freshIds, ih, List.cons_append, hnext]

theorem toNat_next {next : NodeId} {n : Nat} (h : next.toNat + n < UInt32.size) :
    (next + UInt32.ofNat n).toNat = next.toNat + n := by
  rw [UInt32.size] at h
  rw [UInt32.toNat_add, UInt32.toNat_ofNat']
  omega

theorem toNat_max_next {next : NodeId} {n : Nat} (h : next.toNat + n < UInt32.size) :
    (max next (next + UInt32.ofNat n)).toNat = next.toNat + n := by
  have hle : next ≤ next + UInt32.ofNat n := by
    rw [UInt32.le_iff_toNat_le, toNat_next h]
    exact Nat.le_add_right _ _
  rw [← toNat_next h]
  exact congrArg UInt32.toNat (if_pos hle)

/-- New numbers are new, as long as they do not wrap around. -/
theorem bounds_of_mem_freshIds {next id : NodeId} {n : Nat} (h : next.toNat + n < UInt32.size)
    (hid : id ∈ freshIds next n) : next.toNat ≤ id.toNat ∧ id.toNat < next.toNat + n := by
  induction n generalizing next with
  | zero => cases hid
  | succ n ih =>
    have hnext : (next + 1).toNat = next.toNat + 1 := toNat_next (n := 1) (by omega)
    rcases List.mem_cons.mp hid with rfl | hid
    · omega
    · have hbounds := ih (by omega) hid
      omega

theorem nodup_freshIds {next : NodeId} {n : Nat} (h : next.toNat + n < UInt32.size) :
    (freshIds next n).Nodup := by
  induction n generalizing next with
  | zero => exact List.nodup_nil
  | succ n ih =>
    have hnext : (next + 1).toNat = next.toNat + 1 := toNat_next (n := 1) (by omega)
    refine List.nodup_cons.mpr ⟨fun hmem => ?_, ih (by omega)⟩
    have hbounds := bounds_of_mem_freshIds (by omega) hmem
    omega

/-- The numbers `ys` come from `xs` and from the `n` numbers from `next` on, none more often than it
is there. -/
def Grown (next : NodeId) (n : Nat) (xs ys : List NodeId) : Prop :=
  ∀ id, ys.count id ≤ xs.count id + (freshIds next n).count id

namespace Grown

variable {next : NodeId} {n k : Nat} {xs ys zs xs' ys' : List NodeId}

theorem refl (next : NodeId) (n : Nat) (xs : List NodeId) : Grown next n xs xs :=
  fun _ => Nat.le_add_right _ _

theorem trans (h : Grown next n xs ys) (h' : Grown (next + UInt32.ofNat n) k ys zs) :
    Grown next (n + k) xs zs := by
  intro id
  have hfirst := h id
  have hthen := h' id
  rw [freshIds_add, List.count_append]
  omega

theorem append (h : Grown next n xs ys) (h' : Grown (next + UInt32.ofNat n) k xs' ys') :
    Grown next (n + k) (xs ++ xs') (ys ++ ys') := by
  intro id
  have hfirst := h id
  have hthen := h' id
  rw [freshIds_add, List.count_append, List.count_append, List.count_append]
  omega

theorem after (front : List NodeId) (h : Grown next n xs ys) :
    Grown next n (front ++ xs) (front ++ ys) := by
  intro id
  have hrest := h id
  rw [List.count_append, List.count_append]
  omega

end Grown

/-- **A module stays numbered** when it loses nodes and gets some with new numbers. -/
theorem Module.Numbered.extend {m out : Module} (hm : m.Numbered) {n : Nat}
    (hroom : m.nextId.toNat + n < UInt32.size) (hcount : Grown m.nextId n m.ids out.ids)
    (hnext : out.nextId.toNat = m.nextId.toNat + n) : out.Numbered := by
  have hold {id : NodeId} (hid : m.nextId.toNat ≤ id.toNat) : m.ids.count id = 0 := by
    refine List.count_eq_zero.mpr fun hmem => ?_
    have hlt := UInt32.lt_iff_toNat_lt.mp (hm.below id hmem)
    omega
  constructor
  · refine List.nodup_iff_count_le_one.mpr fun id => Nat.le_trans (hcount id) ?_
    by_cases hid : m.nextId.toNat ≤ id.toNat
    · -- A number from the next one on is no old one, and was given to one new node at most.
      have hnew := List.nodup_iff_count_le_one.mp (nodup_freshIds hroom) id
      rw [hold hid]
      omega
    · have hnew : (freshIds m.nextId n).count id = 0 :=
        List.count_eq_zero.mpr fun hmem => hid (bounds_of_mem_freshIds hroom hmem).1
      have hone := List.nodup_iff_count_le_one.mp hm.nodup id
      omega
  · intro id hid
    rw [UInt32.lt_iff_toNat_lt, hnext]
    have hpos := List.count_pos_iff.mpr hid
    have hle := hcount id
    by_cases hold' : id ∈ m.ids
    · have hlt := UInt32.lt_iff_toNat_lt.mp (hm.below id hold')
      omega
    · rw [List.count_eq_zero.mpr hold'] at hle
      exact (bounds_of_mem_freshIds hroom (List.count_pos_iff.mp (by omega))).2

end Migration
