import Migration.Json.Reader
import Migration.Recipe.Basic
import Migration.Tree.Decode

/-!
# Manifests

A manifest lists recipes as they are configured. It is read from JSON in two steps: its shape first,
then its names. An object may have its fields in any order, or be an array of their values in the
order given here; a known field must not be repeated. A manifest has no other fields than its own,
while recipes and mappings may.
-/

namespace Migration

/-- A recipe as it is configured. -/
inductive RecipeSpec where
  | changeSupertype (old new : String)
  | changeConstant (mapping : ConstantMapping)
  | changeConstants (mappings : List ConstantMapping)
  | pipeline (name : Option String) (recipes : List RecipeSpec)

/-- A list of recipes as it is configured. -/
structure Manifest where
  name : Option String
  recipes : List RecipeSpec

/-! ### Building -/

/-- The name of a pipeline without one. -/
def defaultPipelineName : String := "Pipeline"

/-- A pipeline of recipes; its name must not be empty. -/
def buildPipeline (name : Option String) (recipes : List Recipe) :
    Except ConfigurationError Recipe :=
  let name := name.getD defaultPipelineName
  if name == "" then .error (.emptyName "name") else .ok (.pipeline name recipes)

mutual

/-- The recipe that a configured one describes. -/
def RecipeSpec.build : RecipeSpec → Except ConfigurationError Recipe
  | .changeSupertype old new => do
    return .changeSupertype (← SupertypeChange.ofNames old new)
  | .changeConstant mapping => do
    return .changeConstant (← ConstantTable.ofMappings [mapping])
  | .changeConstants mappings => do
    return .changeConstants (← ConstantTable.ofMappings mappings)
  | .pipeline name recipes => do
    buildPipeline name (← RecipeSpec.buildAll recipes)
termination_by structural s => s

/-- The recipes that configured ones describe, in order. -/
def RecipeSpec.buildAll : List RecipeSpec → Except ConfigurationError (List Recipe)
  | [] => .ok []
  | s :: ss => do
    let r ← s.build
    return r :: (← RecipeSpec.buildAll ss)
termination_by structural ss => ss

end

/-- The recipes of a manifest as one pipeline. -/
def Manifest.build (m : Manifest) : Except ConfigurationError Recipe := do
  buildPipeline m.name (← RecipeSpec.buildAll m.recipes)

/-! ### As JSON -/

/-- The fields of a mapping. -/
def ConstantMapping.fields (m : ConstantMapping) : List (String × Json) :=
  [("oldOwner", .str m.oldOwner), ("oldMember", .str m.oldMember), ("newOwner", .str m.newOwner),
    ("newMember", .str m.newMember)]

def ConstantMapping.toJson (m : ConstantMapping) : Json := .obj m.fields

mutual

def RecipeSpec.toJson : RecipeSpec → Json
  | .changeSupertype old new =>
    .obj [("type", .str "ChangeSupertype"), ("old", .str old), ("new", .str new)]
  | .changeConstant mapping => .obj (("type", .str "ChangeConstant") :: mapping.fields)
  | .changeConstants mappings =>
    .obj [("type", .str "ChangeConstants"),
      ("mappings", .arr (mappings.map ConstantMapping.toJson))]
  | .pipeline name recipes =>
    .obj ([("type", .str "Pipeline")] ++ Json.optField "name" name
      ++ [("units", .arr (RecipeSpec.toJsonAll recipes))])
termination_by structural s => s

def RecipeSpec.toJsonAll : List RecipeSpec → List Json
  | [] => []
  | s :: ss => s.toJson :: RecipeSpec.toJsonAll ss
termination_by structural ss => ss

end

def Manifest.toJson (m : Manifest) : Json :=
  .obj (Json.optField "name" m.name ++ [("units", .arr (RecipeSpec.toJsonAll m.recipes))])

/-! ### From JSON -/

namespace Decoder

/-- The fields of a record whose fields are called `names`, none of which may be repeated. -/
def record (names : List String) : Decoder Fields
  | .obj pairs =>
    if names.all fun name => (pairs.filter (·.1 == name)).length ≤ 1 then
      fields names 0 (.obj pairs)
    else none
  | j => fields names 0 j

def constantMapping : Decoder ConstantMapping := fun j => do
  let fs ← record ["oldOwner", "oldMember", "newOwner", "newMember"] j
  return ⟨← need fs "oldOwner" str, ← need fs "oldMember" str, ← need fs "newOwner" str,
    ← need fs "newMember" str⟩

/-- The kind of a recipe, and its other fields. In an array the kind comes first. -/
def kindAndFields : Decoder (Json × Json)
  | .obj pairs =>
    match pairs.filter (·.1 == "type") with
    | [(_, kind)] => some (kind, .obj (pairs.filter (·.1 != "type")))
    | _ => none
  | .arr (kind :: rest) => some (kind, .arr rest)
  | _ => none

/-- The kind of a recipe, given by its name. -/
def kindName : Decoder String := str

/-- The kind of a recipe inside a pipeline, which may also be given by its position among the four
kinds. -/
def innerKindName : Decoder String
  | .int n => if 0 ≤ n then
      ["ChangeSupertype", "ChangeConstant", "ChangeConstants", "Pipeline"][n.toNat]?
    else none
  | j => kindName j

/-- A recipe, given how its kind and the recipes inside it are read. -/
def recipeOf (kind : Decoder String) (self : Decoder RecipeSpec) : Decoder RecipeSpec := fun j => do
  let (tag, body) ← kindAndFields j
  match ← kind tag with
  | "ChangeSupertype" =>
    let fs ← record ["old", "new"] body
    return .changeSupertype (← need fs "old" str) (← need fs "new" str)
  | "ChangeConstant" => return .changeConstant (← constantMapping body)
  | "ChangeConstants" =>
    let fs ← record ["mappings"] body
    return .changeConstants (← need fs "mappings" (list constantMapping))
  | "Pipeline" =>
    let fs ← record ["name", "units"] body
    return .pipeline (← want fs "name" str) (← need fs "units" (list self))
  | _ => none

/-- A recipe inside a pipeline. -/
def innerRecipe : Decoder RecipeSpec := fix (recipeOf innerKindName)

/-- A recipe. -/
def recipe : Decoder RecipeSpec := recipeOf kindName innerRecipe

def manifest : Decoder Manifest := fun j => do
  let fs ← record ["name", "units"] j
  guard (onlyFields ["name", "units"] j)
  return ⟨← want fs "name" str, ← need fs "units" (list recipe)⟩
where
  /-- An object has no fields but the named ones. -/
  onlyFields (names : List String) : Json → Bool
    | .obj pairs => pairs.all (names.contains ·.1)
    | _ => true

end Decoder

/-- The recipe that a JSON value configures. -/
def RecipeSpec.ofJson? (j : Json) : Option RecipeSpec := Decoder.recipe j

/-- The manifest that a JSON value configures. -/
def Manifest.ofJson? (j : Json) : Option Manifest := Decoder.manifest j

/-- The manifest that a text spells. -/
def Manifest.parse (text : String) : Except ConfigurationError Manifest :=
  match (Json.parse text).bind Manifest.ofJson? with
  | some m => .ok m
  | none => .error .manifest

end Migration
