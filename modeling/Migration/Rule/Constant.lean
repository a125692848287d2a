import Migration.Rule.Matching
import Migration.Rule.PassState
import Migration.Traversal.Transform

/-!
# Moving constants

A table says which constants moved: a reference `Owner.MEMBER` to an old constant becomes a
reference to the new one. An owner that is spelled simply becomes the new simple name, and the new
owner is imported; one that is spelled with dots becomes the new full name, as a chain of accesses.

The entries of a table have keys that do not overlap, and no entry produces what another one
matches.
-/

namespace Migration

/-- A move of a constant as it is configured. -/
structure ConstantMapping where
  oldOwner : String
  oldMember : String
  newOwner : String
  newMember : String
deriving DecidableEq, Repr

/-- A move of a constant. -/
structure ConstantChange where
  oldOwner : TypePattern
  oldMember : String
  newOwner : TypePattern
  newMember : String

namespace ConstantChange

/-- The move that a configured one describes. -/
def ofMapping (m : ConstantMapping) : Except ConfigurationError ConstantChange := do
  let oldOwner ← TypePattern.parse "oldOwner" m.oldOwner
  checkMember "oldMember" m.oldMember
  let newOwner ← TypePattern.parse "newOwner" m.newOwner
  checkMember "newMember" m.newMember
  if oldOwner = newOwner ∧ m.oldMember = m.newMember then
    throw (.identicalNames (Name.join m.oldOwner m.oldMember))
  return ⟨oldOwner, m.oldMember, newOwner, m.newMember⟩

/-- The constant moves to another owner. -/
def ownerChanges (c : ConstantChange) : Bool := c.oldOwner != c.newOwner

/-- Both entries can match the same reference. -/
def sameKey (c d : ConstantChange) : Bool :=
  c.oldMember == d.oldMember && c.oldOwner.overlaps d.oldOwner

/-- What `c` produces can be matched by `d`. -/
def feeds (c d : ConstantChange) : Bool :=
  c.newMember == d.oldMember && c.newOwner.overlaps d.oldOwner

/-- The access refers to the old constant. -/
def isMatch (c : ConstantChange) (symbols : SymbolTable) (a : FieldAccess) : Bool :=
  c.oldOwner.matchesReference c.oldMember symbols a

end ConstantChange

/-! ### Tables -/

/-- A table of moved constants. -/
structure ConstantTable where
  entries : List ConstantChange

namespace ConstantTable

/-- The entries that configured moves describe; the key of each must not overlap an earlier one. -/
def readEntries (earlier : List ConstantChange) :
    List ConstantMapping → Except ConfigurationError (List ConstantChange)
  | [] => .ok earlier
  | m :: ms => do
    let entry ← ConstantChange.ofMapping m
    if earlier.any (·.sameKey entry) then throw (.duplicateKey m.oldOwner m.oldMember)
    readEntries (earlier ++ [entry]) ms

/-- The first entry that feeds another one; `before` are the entries in front of the given ones. -/
def chained? (before : List ConstantChange) : List ConstantChange → Option ConstantChange
  | [] => none
  | c :: after =>
    if (before ++ after).any c.feeds then some c else chained? (before ++ [c]) after

/-- The table that configured moves describe. -/
def ofMappings (ms : List ConstantMapping) : Except ConfigurationError ConstantTable := do
  if ms.isEmpty then throw .emptyTable
  let entries ← readEntries [] ms
  match chained? [] entries with
  | some c => throw (.chainedMapping c.newOwner.spelled c.newMember)
  | none => return ⟨entries⟩

/-- The first entry that matches an access. -/
def find? (t : ConstantTable) (symbols : SymbolTable) (a : FieldAccess) : Option ConstantChange :=
  t.entries.find? (·.isMatch symbols a)

end ConstantTable

/-! ### Replacing references -/

/-- The rest of a name as accesses on `target`; each access and its name take a new number. -/
def chainOnto (target : Expr) (nextId : NodeId) : List String → Expr × NodeId
  | [] => (target, nextId)
  | name :: names =>
    chainOnto (.access ⟨nextId, target, "", ⟨nextId + 1, "", name⟩, none⟩) (nextId + 2) names

/-- A dotted name as a chain of accesses with new numbers. -/
def nameChain (nextId : NodeId) (lead : Trivia) (name : String) : Expr × NodeId :=
  match Name.segments name with
  | [] => (.name ⟨nextId, lead, name⟩, nextId + 1)
  | first :: rest => chainOnto (.name ⟨nextId, lead, first⟩) (nextId + 1) rest

namespace ConstantChange

/-- The target of an access after the move, and what is noted down about it; nothing when the new
full name is needed and not known. -/
def retarget (c : ConstantChange) (symbols : SymbolTable) (a : FieldAccess) (s : PassState) :
    Option Expr × PassState :=
  if !c.ownerChanges then (some a.target, s)
  else
    match a.target with
    | .name ident =>
      (some (.name (ident.withName c.newOwner.simpleName)),
        s.retarget ident.id c.oldOwner.spelled c.newOwner.spelled)
    | target =>
      match c.newOwner.qualifiedIn? symbols with
      | none => (none, s.recordMismatch a.id (.ownerNotQualifiable a.name.name c.newOwner.spelled))
      | some name =>
        let (chain, nextId) := nameChain s.nextId target.lead name
        (some chain, { s with nextId })

/-- Replace a matching access. Its target must spell a name that can be a type. -/
def replace (c : ConstantChange) (symbols : SymbolTable) (a : FieldAccess) (s : PassState) :
    Option Expr × PassState :=
  if a.target.dottedName?.any Name.isTypeQualifier then
    match c.retarget symbols a s with
    | (none, s) => (none, s)
    | (some target, s) =>
      let owner := a.owner.bind fun _ => c.newOwner.qualifiedIn? symbols
      (some (.access { a with target, name := a.name.withName c.newMember, owner }), s.recordEdit)
  else (none, s.recordMismatch a.id (.qualifierNoType a.name.name c.newOwner.spelled))

end ConstantChange

namespace ConstantTable

/-- Replace an access that an entry matches. -/
def replace (t : ConstantTable) (symbols : SymbolTable) (a : FieldAccess) (s : PassState) :
    Option Expr × PassState :=
  match t.find? symbols a with
  | none => (none, s)
  | some c => c.replace symbols a s

/-- The hooks of the table. -/
def hooks (t : ConstantTable) (symbols : SymbolTable) : Hooks PassState :=
  { Hooks.none with access := t.replace symbols }

/-- Change a module to the given depth. -/
def passWithin (t : ConstantTable) (symbols : SymbolTable) (m : Module) (depth : Nat) :
    Pass PassState (Option Module) :=
  m.transform (t.hooks symbols) depth

/-- How many segments the new owner of an entry has where its full name is written. -/
def chainLength (symbols : SymbolTable) (c : ConstantChange) : Nat :=
  match c.newOwner.qualifiedIn? symbols with
  | some name => (Name.segments name).length
  | none => 0

/-- A depth to which every pass goes that ends at all. A replacement may contain a chain that an
entry matches again; but what happens below a chain depends on the chain only, so a chain inside
another chain of the same entry would contain a third one, and so on without end. -/
def depthBound (t : ConstantTable) (symbols : SymbolTable) (m : Module) : Nat :=
  m.height + t.entries.foldr (fun c n => chainLength symbols c + 1 + n) 0

/-- Change a module. -/
def pass (t : ConstantTable) (symbols : SymbolTable) (m : Module) :
    Pass PassState (Option Module) :=
  t.passWithin symbols m (t.depthBound symbols m)

end ConstantTable

end Migration
