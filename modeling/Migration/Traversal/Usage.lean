import Migration.Text.NameSet
import Migration.Traversal.Walk

/-!
# Used names

The simple names that the code of a module depends on: the first segments of its types and of its
expression names, and the names of its annotations. Imports are no usage.
-/

namespace Migration

/-- The used names with the head of one more dotted name, unless it is empty or `?`. -/
def NameSet.insertHead (s : NameSet) (name : String) : NameSet :=
  let head := Name.head name
  if head == "" || head == "?" then s else s.insert head

/-- The name of an annotation, without its mark. -/
def Ident.markerName (i : Ident) : String :=
  String.ofList (i.name.toList.dropWhile (· == '@'))

/-- Collects used names, those of the types and expression names with a number in `skip` apart. -/
def usageVisitor (skip : List NodeId) : Visitor NameSet where
  enter
    | .typeName t, s => (.descend, if skip.contains t.id then s else s.insertHead t.name)
    | .nameExpr i, s => (.descend, if skip.contains i.id then s else s.insertHead i.name)
    | .marker i, s => (.descend, s.insertHead i.markerName)
    | _, s => (.descend, s)
  leave _ s := s

namespace Module

/-- The names that the code uses, leaving aside the types and expression names numbered in `skip`;
the arguments of a type left aside still count. -/
def usedNamesExcept (m : Module) (skip : List NodeId) : NameSet :=
  (m.walk (usageVisitor skip) NameSet.empty).2

/-- The names that the code uses. -/
def usedNames (m : Module) : NameSet := m.usedNamesExcept []

end Module

end Migration
