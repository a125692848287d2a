import Migration.Imports.Reconcile
import Migration.Json.Basic

/-!
# Reports

What a recipe did to one module, as a value and as JSON. Empty lists are left out of the JSON form.
-/

namespace Migration

/-- What a recipe did to one module. -/
structure Report where
  recipe : String
  changed : Bool
  /-- How many nodes were replaced. -/
  edits : Nat
  importsAdded : List String
  importsRemoved : List String
  mismatches : List Mismatch
  /-- The reports of the recipes inside, in order. -/
  children : List Report

namespace Json

/-- A field that is left out when its list is empty. -/
def listField (key : String) : List Json → List (String × Json)
  | [] => []
  | items => [(key, .arr items)]

end Json

def Mismatch.toJson (m : Mismatch) : Json :=
  .obj [("node", .nat m.node.toNat), ("reason", .str m.reason.text)]

/-- How a mismatch is shown to a person. -/
def Mismatch.text (m : Mismatch) : String :=
  "NodeId(" ++ toString m.node.toNat ++ "): " ++ m.reason.text

mutual

def Report.toJson : Report → Json
  | ⟨recipe, changed, edits, added, removed, mismatches, children⟩ =>
    .obj ([("unit", .str recipe), ("changed", .bool changed), ("rewrites", .nat edits)]
      ++ Json.listField "imports_added" (added.map .str)
      ++ Json.listField "imports_removed" (removed.map .str)
      ++ Json.listField "mismatches" (mismatches.map Mismatch.toJson)
      ++ Json.listField "children" (Report.toJsonAll children))
termination_by structural r => r

def Report.toJsonAll : List Report → List Json
  | [] => []
  | r :: rs => r.toJson :: Report.toJsonAll rs
termination_by structural rs => rs

end

mutual

/-- All mismatches: a report's own, then those of the reports inside. -/
def Report.allMismatches : Report → List Mismatch
  | ⟨_, _, _, _, _, mismatches, children⟩ => mismatches ++ Report.allMismatchesOf children
termination_by structural r => r

/-- All mismatches of several reports. -/
def Report.allMismatchesOf : List Report → List Mismatch
  | [] => []
  | r :: rs => r.allMismatches ++ Report.allMismatchesOf rs
termination_by structural rs => rs

end

end Migration
