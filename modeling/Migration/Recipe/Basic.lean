import Migration.Recipe.Report
import Migration.Rule.Constant
import Migration.Rule.Supertype

/-!
# Recipes

A recipe changes a module: it retargets superclasses, moves one constant or a table of them, or runs
other recipes one after the other. Where it changes anything, the imports are brought in line; where
an import cannot be found, the recipe fails and its module stays as it was. Recipes that ran before
the failing one are not undone.

A pass over a module may have no end, because what it puts in may match again. Applying a recipe
then has no result.
-/

namespace Migration

/-- A way to change modules. -/
inductive Recipe where
  | changeSupertype (change : SupertypeChange)
  | changeConstant (table : ConstantTable)
  | changeConstants (table : ConstantTable)
  | pipeline (name : String) (recipes : List Recipe)

/-- A changed module, and what was done to it. -/
structure Applied where
  module : Module
  report : Report

/-- The failure of a recipe. -/
structure ApplyError where
  /-- The name of the recipe that failed. -/
  recipe : String
  cause : ResolutionError
  /-- The module after the recipes that ran before. -/
  committed : Module
  /-- The reports of the recipes that ran before. -/
  completed : List Report

/-- The wording of a failure. -/
def ApplyError.message (e : ApplyError) : String :=
  "unit `" ++ e.recipe ++ "` failed: " ++ e.cause.message

/-- The outcome of applying a recipe: nothing when it has no end. -/
abbrev Outcome (α : Type) := Option (Except ApplyError α)

/-- Run a pass over a module and bring its imports in line. -/
def applyPass (recipe : String) (m : Module) (index : TypeIndex)
    (pass : SymbolTable → Module → Pass PassState (Option Module)) : Outcome Applied :=
  let symbols := SymbolTable.ofModule m index
  (pass symbols m (PassState.start m)).map fun (changed, s) =>
    match changed with
    | none => .ok ⟨m, ⟨recipe, false, 0, [], [], s.mismatches, []⟩⟩
    | some changed =>
      match changed.reconcile symbols s with
      | .error cause => .error ⟨recipe, cause, m, []⟩
      | .ok (out, imports) =>
        .ok ⟨out, ⟨recipe, true, s.edits, imports.added, imports.removed, s.mismatches, []⟩⟩

/-- The report of a pipeline, given those of its recipes. -/
def Report.ofChildren (name : String) (children : List Report) : Report :=
  ⟨name, children.any (·.changed), children.foldr (·.edits + ·) 0, [], [], [], children⟩

namespace Recipe

/-- The name of a recipe in reports. -/
def name : Recipe → String
  | .changeSupertype _ => "ChangeSupertype"
  | .changeConstant _ => "ChangeConstant"
  | .changeConstants _ => "ChangeConstants"
  | .pipeline name _ => name

/-- The recipes inside. -/
def children : Recipe → List Recipe
  | .pipeline _ recipes => recipes
  | _ => []

/-- What a recipe does, in words. -/
def description : Recipe → String
  | .changeSupertype c =>
    "Change supertype `" ++ c.old.spelled ++ "` to `" ++ c.new.spelled ++ "`"
  | .changeConstant t =>
    match t.entries with
    | c :: _ =>
      "Change `" ++ Name.join c.oldOwner.spelled c.oldMember ++ "` to `"
        ++ Name.join c.newOwner.spelled c.newMember ++ "`"
    | [] => ""
  | .changeConstants t => "Change " ++ toString t.entries.length ++ " constant reference(s)"
  | .pipeline _ recipes => toString recipes.length ++ " unit(s) in order"

mutual

/-- Apply a recipe to a module, with the given types known. -/
def apply (index : TypeIndex) : Recipe → Module → Outcome Applied
  | .changeSupertype c, m => applyPass "ChangeSupertype" m index c.pass
  | .changeConstant t, m => applyPass "ChangeConstant" m index t.pass
  | .changeConstants t, m => applyPass "ChangeConstants" m index t.pass
  | .pipeline name recipes, m =>
    (applyAll index recipes m).map fun outcome =>
      outcome.map fun (m, reports) => ⟨m, Report.ofChildren name reports⟩
termination_by structural r => r

/-- Apply recipes one after the other. -/
def applyAll (index : TypeIndex) : List Recipe → Module → Outcome (Module × List Report)
  | [], m => some (.ok (m, []))
  | r :: rs, m =>
    match apply index r m with
    | none => none
    | some (.error e) => some (.error e)
    | some (.ok a) =>
      match applyAll index rs a.module with
      | none => none
      | some (.error e) => some (.error { e with completed := a.report :: e.completed })
      | some (.ok (m, reports)) => some (.ok (m, a.report :: reports))
termination_by structural rs => rs

end

end Recipe

/-- The description of a recipe and of those inside it, as JSON; an empty list is left out. -/
def Json.ofRecipe (name description : String) (children : List Json) : Json :=
  .obj ([("name", .str name), ("description", .str description)]
    ++ Json.listField "units" children)

mutual

def Recipe.toInfo : Recipe → Json
  | .changeSupertype c =>
    Json.ofRecipe "ChangeSupertype" (Recipe.changeSupertype c).description []
  | .changeConstant t => Json.ofRecipe "ChangeConstant" (Recipe.changeConstant t).description []
  | .changeConstants t => Json.ofRecipe "ChangeConstants" (Recipe.changeConstants t).description []
  | .pipeline name recipes =>
    Json.ofRecipe name (Recipe.pipeline name recipes).description (Recipe.toInfoAll recipes)
termination_by structural r => r

def Recipe.toInfoAll : List Recipe → List Json
  | [] => []
  | r :: rs => r.toInfo :: Recipe.toInfoAll rs
termination_by structural rs => rs

end

end Migration
