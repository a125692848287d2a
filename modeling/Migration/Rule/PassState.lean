import Migration.Text.NameSet
import Migration.Tree.Basic

/-!
# What a pass notes down

While a pass changes names in a module it notes which types have to be imported for them, which
imports may have become unused, which names it pointed elsewhere, and which matched nodes it had to
leave alone.
-/

namespace Migration

/-- Why a matched node was left alone. -/
inductive MismatchReason where
  /-- A superclass is spelled with dots, and the full name of the new type is not known. -/
  | superclassNotQualifiable (spelled new : String)
  /-- The owner of a member is no type. -/
  | qualifierNoType (member owner : String)
  /-- The owner of a member is spelled with dots, and the full name of the new one is not known. -/
  | ownerNotQualifiable (member owner : String)
deriving DecidableEq, Repr

/-- The wording of each reason. -/
def MismatchReason.text : MismatchReason → String
  | .superclassNotQualifiable spelled new =>
    "superclass `" ++ spelled ++ "` is spelled qualified but `" ++ new
      ++ "` has no known fully-qualified name"
  | .qualifierNoType member owner =>
    "qualifier of `." ++ member ++ "` is not a type name; cannot retarget to `" ++ owner ++ "`"
  | .ownerNotQualifiable member owner =>
    "owner of `." ++ member ++ "` is spelled qualified but `" ++ owner
      ++ "` has no known fully-qualified name"

/-- A matched node that was left alone. -/
structure Mismatch where
  node : NodeId
  reason : MismatchReason
deriving DecidableEq, Repr

/-- What a pass has noted down so far. -/
structure PassState where
  /-- Types to import, as configured. -/
  additions : NameSet
  /-- Types whose import may be unused now, as configured. -/
  removals : NameSet
  /-- Names that refer to another type now. -/
  retargeted : List NodeId
  mismatches : List Mismatch
  /-- How many nodes were replaced. -/
  edits : Nat
  nextId : NodeId

namespace PassState

/-- Nothing noted down; new nodes are numbered from those of `m` on. -/
def start (m : Module) : PassState where
  additions := NameSet.empty
  removals := NameSet.empty
  retargeted := []
  mismatches := []
  edits := 0
  nextId := m.nextId

/-- `id` now names the type `new` in place of `old`. -/
def retarget (s : PassState) (id : NodeId) (old new : String) : PassState :=
  { s with
    additions := s.additions.insert new
    removals := s.removals.insert old
    retargeted := id :: s.retargeted }

/-- One more node was replaced. -/
def recordEdit (s : PassState) : PassState := { s with edits := s.edits + 1 }

/-- One more matched node was left alone. -/
def recordMismatch (s : PassState) (node : NodeId) (reason : MismatchReason) : PassState :=
  { s with mismatches := s.mismatches ++ [⟨node, reason⟩] }

end PassState

end Migration
